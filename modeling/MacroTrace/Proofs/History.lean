import Mathlib.Data.List.Induction
import Mathlib.Data.List.Nodup
import MacroTrace.Store.Basic

/-!
# Stores and their histories

A store shows nothing but its history: the replacements that no later operation
undid, in the order in which they were made.  `Operation.standing` reads them
off the operations alone.  A shelf holds just this list, and a ledger holds its
definitions one after another, so that all questions have the same answers for
both.
-/

namespace MacroTrace

namespace Ledger

variable (ledger : Ledger)

def definitions : List Definition :=
  ledger.entries.map (·.definition)

theorem select_eq (keep : Definition → Bool) :
    ledger.select keep = ledger.definitions.filter keep := by
  have ordered :
      (ledger.entries.filter fun entry => keep entry.definition).Pairwise
        fun one other => decide (one.number ≤ other.number) = true := by
    refine (ledger.ordered.filter _).imp ?_
    intro one other less
    exact decide_eq_true (Nat.le_of_lt less)
  rw [select, List.mergeSort_of_pairwise ordered, definitions, List.filter_map]
  rfl

section Groups

variable {κ : Type} [BEq κ] [LawfulBEq κ]

private theorem leastNumber_head
    {key : Definition → κ} {entry : Entry} {rest : List Entry}
    (earlier : ∀ other ∈ rest, entry.number < other.number) :
    leastNumber key (entry :: rest) (key entry.definition) = entry.number := by
  have least : (((entry :: rest).filter fun other =>
      key other.definition == key entry.definition).map (·.number)).min? =
        some entry.number := by
    apply List.min?_eq_some_iff.mpr
    constructor
    · simp
    · intro number member
      obtain ⟨other, listed, rfl⟩ := List.mem_map.mp member
      rcases List.mem_cons.mp (List.mem_filter.mp listed).1 with rfl | later
      · exact Nat.le_refl _
      · exact Nat.le_of_lt (earlier other later)
  rw [leastNumber, least]
  rfl

private theorem leastNumber_other
    {key : Definition → κ} {entry : Entry} {rest : List Entry} {value : κ}
    (different : value ≠ key entry.definition) :
    leastNumber key (entry :: rest) value =
      leastNumber key (rest.filter fun other => !key other.definition ==
        key entry.definition) value := by
  have same :
      (entry :: rest).filter (fun other => key other.definition == value) =
        (rest.filter fun other => !key other.definition ==
          key entry.definition).filter
          fun other => key other.definition == value := by
    rw [List.filter_cons_of_neg (by simpa using different.symm),
      List.filter_filter]
    apply List.filter_congr
    intro other _
    by_cases here : key other.definition = value
    · simp [here, different]
    · simp [here]
  rw [leastNumber, same, leastNumber]

private theorem lt_leastNumber
    {key : Definition → κ} {entries : List Entry} {value : κ} {number : Nat}
    (above : ∀ entry ∈ entries, number < entry.number)
    (present : value ∈ entries.map fun entry => key entry.definition) :
    number < leastNumber key entries value := by
  obtain ⟨entry, member, rfl⟩ := List.mem_map.mp present
  have some : entry.number ∈ (entries.filter fun other =>
      key other.definition == key entry.definition).map (·.number) :=
    List.mem_map_of_mem (List.mem_filter.mpr ⟨member, by simp⟩)
  rw [leastNumber]
  cases least : ((entries.filter fun other =>
      key other.definition == key entry.definition).map (·.number)).min? with
  | none =>
      rw [List.min?_eq_none_iff.mp least] at some
      cases some
  | some lowest =>
      obtain ⟨other, listed, rfl⟩ := List.mem_map.mp (List.min?_mem least)
      exact above other (List.mem_filter.mp listed).1

/-- In the order of their first entries, keys are in the order of their least
numbers. -/
private theorem pairwise_leastNumber
    (key : Definition → κ) (entries : List Entry)
    (ordered : entries.Pairwise fun one other => one.number < other.number) :
    (entries.map fun entry => key entry.definition).eraseDups.Pairwise
      fun one other =>
      leastNumber key entries one < leastNumber key entries other := by
  match entries with
  | [] => exact .nil
  | entry :: rest =>
      obtain ⟨earlier, orderedRest⟩ := List.pairwise_cons.mp ordered
      -- The other keys are those of the entries behind the first that do not
      -- have its key.
      have others : (rest.map fun other => key other.definition).filter
            (fun value => !value == key entry.definition) =
          (rest.filter fun other => !key other.definition ==
            key entry.definition).map
            fun other => key other.definition := List.filter_map
      have later := pairwise_leastNumber key
        (rest.filter fun other => !key other.definition == key entry.definition)
        (orderedRest.filter _)
      rw [List.map_cons, List.eraseDups_cons, others]
      have different {value : κ} (member : value ∈ ((rest.filter fun other =>
          !key other.definition == key entry.definition).map
            fun other => key other.definition).eraseDups) : value ≠
              key entry.definition := by
        obtain ⟨other, listed, rfl⟩ :=
          List.mem_map.mp (List.mem_eraseDups.mp member)
        simpa using (List.mem_filter.mp listed).2
      refine List.pairwise_cons.mpr ⟨?_, ?_⟩
      · intro value member
        rw [leastNumber_head earlier, leastNumber_other (different member)]
        apply lt_leastNumber
        · intro other listed
          exact earlier other (List.mem_filter.mp listed).1
        · exact List.mem_eraseDups.mp member
      · refine later.imp_of_mem ?_
        intro one other oneMember otherMember less
        rw [leastNumber_other (different oneMember),
          leastNumber_other (different otherMember)]
        exact less
termination_by entries.length
decreasing_by
  have shorter := List.length_filter_le
    (fun other : Entry => !key other.definition == key entry.definition) rest
  rw [List.length_cons]
  omega

theorem groups_eq (key : Definition → κ) :
    ledger.groups key = (ledger.definitions.map key).eraseDups := by
  have keys : (ledger.entries.map fun entry => key entry.definition) =
      ledger.definitions.map key := by
    rw [definitions, List.map_map]
    rfl
  have ordered : (((ledger.definitions.map key).eraseDups).map fun value =>
      (value, leastNumber key ledger.entries value)).Pairwise
        fun one other => decide (one.2 ≤ other.2) = true := by
    rw [List.pairwise_map, ← keys]
    refine (pairwise_leastNumber key ledger.entries ledger.ordered).imp ?_
    intro one other less
    exact decide_eq_true (Nat.le_of_lt less)
  simp only [groups, keys]
  rw [List.mergeSort_of_pairwise ordered, List.map_map]
  exact List.map_id _

end Groups

theorem definitions_remove (path : String) :
    (ledger.remove path).definitions =
      ledger.definitions.filter (·.file != path) := by
  rw [definitions, remove, definitions, List.filter_map]
  rfl

theorem definitions_append (definitions : List Definition) :
    (ledger.append definitions).definitions =
      ledger.definitions ++ definitions := by
  have entered (last : Nat) : (numbered last definitions).map (·.definition) =
      definitions := by
    induction definitions generalizing last with
    | nil => rfl
    | cons definition rest ih => rw [numbered, List.map_cons, ih]
  rw [Ledger.definitions, append, List.map_append, entered]
  rfl

/-- Definitions whose lines fit are entered as they are. -/
theorem replace_ofDefinition
    {definitions : List Definition}
    (fit : ∀ definition ∈ definitions, fits definition.line = true)
    (path : String) :
    ledger.replace path (definitions.map Row.ofDefinition) =
      .ok ((ledger.remove path).append definitions) := by
  have entered : (definitions.map Row.ofDefinition).mapM enter =
      .ok definitions := by
    induction definitions with
    | nil => rfl
    | cons definition rest ih =>
        have first : enter (Row.ofDefinition definition) = .ok definition := by
          simp [enter, Row.ofDefinition, Row.complete?,
            fit definition List.mem_cons_self]
        have others :=
          ih fun other member => fit other (List.mem_cons_of_mem _ member)
        rw [List.map_cons, List.mapM_cons, first, others]
        rfl
  rw [replace, entered]
  rfl

end Ledger

namespace Shelf

variable (shelf : Shelf)

theorem snapshot_eq : shelf.snapshot = ⟨shelf.entries.flatMap (·.2)⟩ := by
  unfold snapshot takeSnapshot
  split
  next taken => exact shelf.current _ taken
  next => rfl

theorem entries_takeSnapshot :
    shelf.takeSnapshot.2.entries = shelf.entries := by
  unfold takeSnapshot
  split <;> rfl

theorem entries_remove (path : String) :
    (shelf.remove path).entries = shelf.others path := by
  unfold remove
  split
  next => rfl
  next absent =>
    symm
    apply List.filter_eq_self.mpr
    intro file member
    simp only [holds, List.any_eq_true, not_exists, not_and] at absent
    simpa using absent file member

theorem entries_replace (path : String) (definitions : List Definition) :
    (shelf.replace path definitions).entries =
      shelf.others path ++ if definitions.isEmpty then []
      else [(path, definitions)] := by
  unfold replace
  split
  next => exact (List.append_nil _).symm
  next => rfl

end Shelf

namespace Store

/-- What is done to a store. -/
inductive Operation where
  | replace (path : String) (definitions : List Definition)
  | remove (path : String)
  | clear
  | snapshot
  deriving DecidableEq, Repr

/-- The files of a store, each with its definitions. -/
abbrev Record := List (String × List Definition)

namespace Operation

def apply (store : Store) : Operation → Except Ledger.Error Store
  | replace path definitions => store.replace path definitions
  | remove path => .ok (store.remove path)
  | clear => .ok store.clear
  | snapshot => .ok store.takeSnapshot.2

def run (operations : List Operation) (store : Store) :
    Except Ledger.Error Store :=
  operations.foldlM apply store

/-- Whether an operation undoes what was entered for a file before. -/
def undoes (path : String) : Operation → Bool
  | replace replaced _ => path == replaced
  | remove removed => path == removed
  | clear => true
  | snapshot => false

/-- What an operation enters.  A replacement by nothing enters nothing. -/
def entered : Operation → Record
  | replace path definitions => if definitions.isEmpty then []
    else [(path, definitions)]
  | remove _ => []
  | clear => []
  | snapshot => []

/-- What operations entered and none of the later ones undid, in the order of
the operations. -/
def standing : List Operation → Record
  | [] => []
  | operation :: later =>
      operation.entered.filter (fun file => !later.any (undoes file.1)) ++
        standing later

/-- An operation that enters definitions under the file that they name, with
lines that fit 64 bits. -/
def IsProper : Operation → Prop
  | replace path definitions =>
      ∀ definition ∈ definitions, definition.file = path ∧
        Ledger.fits definition.line = true
  | remove _ => True
  | clear => True
  | snapshot => True

instance (operation : Operation) : Decidable operation.IsProper :=
  match operation with
  | replace path definitions =>
      inferInstanceAs (Decidable (∀ definition ∈ definitions,
        definition.file = path ∧ Ledger.fits definition.line = true))
  | remove _ => isTrue trivial
  | clear => isTrue trivial
  | snapshot => isTrue trivial

/-- What is left of a record after an operation. -/
def after (record : Record) (operation : Operation) : Record :=
  record.filter (fun file => !operation.undoes file.1) ++ operation.entered

theorem after_replace
    (record : Record) (path : String) (definitions : List Definition) :
    after record (replace path definitions) =
      record.filter (·.1 != path) ++ if definitions.isEmpty then []
      else [(path, definitions)] :=
  rfl

theorem after_remove (record : Record) (path : String) :
    after record (remove path) = record.filter (·.1 != path) :=
  List.append_nil _

theorem after_clear (record : Record) : after record clear = [] := by
  simp [after, undoes, entered]

theorem after_snapshot (record : Record) : after record snapshot = record := by
  rw [after, entered, List.append_nil]
  exact List.filter_eq_self.mpr fun _ _ => rfl

theorem standing_concat (operations : List Operation) (last : Operation) :
    standing (operations ++ [last]) = after (standing operations) last := by
  induction operations with
  | nil => simp [standing, after]
  | cons operation later ih =>
      rw [List.cons_append, standing, standing, ih, after, after,
        List.filter_append, List.filter_filter, List.append_assoc]
      congr 1
      apply List.filter_congr
      intro file _
      rw [List.any_append, Bool.not_or, List.any_cons, List.any_nil,
        Bool.or_false, Bool.and_comm]

end Operation

/-- A record as operations leave it: files are distinct and not empty, and
definitions are kept under the file that they name. -/
structure Record.Sound (record : Record) : Prop where
  distinct : (record.map (·.1)).Nodup
  inhabited : ∀ file ∈ record, file.2 ≠ []
  named : ∀ file ∈ record, ∀ definition ∈ file.2, definition.file = file.1

theorem Record.Sound.filter
    {record : Record}
    (sound : record.Sound)
    (keep : String × List Definition → Bool) :
    Record.Sound (record.filter keep) := by
  constructor
  · exact sound.distinct.sublist (List.filter_sublist.map _)
  · intro file member
    exact sound.inhabited file (List.mem_filter.mp member).1
  · intro file member
    exact sound.named file (List.mem_filter.mp member).1

theorem Record.Sound.tail
    {file : String × List Definition} {rest : Record}
    (sound : Record.Sound (file :: rest)) :
    rest.Sound := by
  constructor
  · exact (List.nodup_cons.mp sound.distinct).2
  · intro other member
    exact sound.inhabited other (List.mem_cons_of_mem _ member)
  · intro other member
    exact sound.named other (List.mem_cons_of_mem _ member)

theorem Record.Sound.after
    {record : Record}
    (sound : record.Sound)
    {operation : Operation}
    (proper : operation.IsProper) :
    Record.Sound (operation.after record) := by
  cases operation with
  | remove path =>
      rw [Operation.after_remove]
      exact sound.filter _
  | clear =>
      rw [Operation.after_clear]
      exact ⟨List.nodup_nil, nofun, nofun⟩
  | snapshot =>
      rw [Operation.after_snapshot]
      exact sound
  | replace path definitions =>
      have others := sound.filter (·.1 != path)
      rw [Operation.after_replace]
      by_cases none : definitions = []
      · rw [none, List.isEmpty_nil, if_pos rfl, List.append_nil]
        exact others
      · rw [if_neg (by simpa using none)]
        constructor
        · rw [List.map_append, List.nodup_append]
          refine ⟨others.distinct, List.nodup_singleton _, ?_⟩
          rintro other member _ last rfl
          obtain ⟨file, listed, rfl⟩ := List.mem_map.mp member
          have differs := (List.mem_filter.mp listed).2
          simp only [List.map_cons, List.map_nil, List.mem_singleton] at last
          simp [last] at differs
        · intro file member
          rcases List.mem_append.mp member with old | new
          · exact others.inhabited file old
          · rw [List.mem_singleton.mp new]
            exact none
        · intro file member definition listed
          rcases List.mem_append.mp member with old | new
          · exact others.named file old definition listed
          · rw [List.mem_singleton.mp new] at listed ⊢
            exact (proper definition listed).1

/-- The files of a sound record are those that its definitions name. -/
theorem Record.Sound.eraseDups_file
    {record : Record}
    (sound : record.Sound) :
    ((record.flatMap (·.2)).map (·.file)).eraseDups = record.map (·.1) := by
  induction record with
  | nil => rfl
  | cons file rest ih =>
      obtain ⟨path, definitions⟩ := file
      have named : ∀ definition ∈ definitions, definition.file = path :=
        sound.named (path, definitions) List.mem_cons_self
      have unnamed : ∀ definition ∈ rest.flatMap (·.2),
          definition.file ≠ path := by
        intro definition member same
        obtain ⟨file, listed, within⟩ := List.mem_flatMap.mp member
        apply (List.nodup_cons.mp sound.distinct).1
        rw [← same, sound.tail.named file listed definition within]
        exact List.mem_map.mpr ⟨file, listed, rfl⟩
      cases definitions with
      | nil => exact absurd rfl (sound.inhabited (path, []) List.mem_cons_self)
      | cons first others =>
          have here : (others.map (·.file)).filter (fun file => !file == path) =
              [] := by
            apply List.filter_eq_nil_iff.mpr
            intro file member
            obtain ⟨definition, listed, rfl⟩ := List.mem_map.mp member
            simp [named definition (List.mem_cons_of_mem _ listed)]
          have there :
              ((rest.flatMap (·.2)).map (·.file)).filter
                  (fun file => !file == path) =
                (rest.flatMap (·.2)).map (·.file) := by
            apply List.filter_eq_self.mpr
            intro file member
            obtain ⟨definition, listed, rfl⟩ := List.mem_map.mp member
            simpa using unnamed definition listed
          rw [List.flatMap_cons, List.map_append, List.map_cons,
            List.cons_append, List.eraseDups_cons,
            named first List.mem_cons_self, List.filter_append, here, there,
            List.nil_append, ih sound.tail, List.map_cons]

theorem Record.Sound.filter_file
    {record : Record}
    (sound : record.Sound)
    (path : String) :
    (record.flatMap (·.2)).filter (·.file != path) =
      (record.filter (·.1 != path)).flatMap (·.2) := by
  induction record with
  | nil => rfl
  | cons file rest ih =>
      have named := sound.named file List.mem_cons_self
      rw [List.flatMap_cons, List.filter_append, ih sound.tail]
      by_cases same : file.1 = path
      · have gone : file.2.filter (·.file != path) = [] := by
          apply List.filter_eq_nil_iff.mpr
          intro definition member
          simp [named definition member, same]
        rw [gone, List.filter_cons_of_neg (by simp [same]), List.nil_append]
      · have stays : file.2.filter (·.file != path) = file.2 := by
          apply List.filter_eq_self.mpr
          intro definition member
          simp [named definition member, same]
        rw [stays, List.filter_cons_of_pos (by simp [same]), List.flatMap_cons]

/-- Whether a store holds a record. -/
def Keeps (record : Record) : Store → Prop
  | shelf store => store.entries = record
  | ledger store => store.definitions = record.flatMap (·.2)

/-- Every operation changes a store as it changes the record. -/
theorem Keeps.apply
    {store : Store} {record : Record}
    (keeps : store.Keeps record)
    (sound : record.Sound)
    {operation : Operation}
    (proper : operation.IsProper) :
    ∃ next, operation.apply store = .ok next ∧
      next.Keeps (operation.after record) := by
  cases store with
  | shelf store =>
      obtain rfl : store.entries = record := keeps
      cases operation with
      | replace path definitions =>
          refine ⟨.shelf (store.replace path definitions), ?_,
            store.entries_replace path _⟩
          have complete :
              (definitions.map Row.ofDefinition).filterMap Row.complete? =
                definitions := by
            rw [List.filterMap_map]
            exact List.filterMap_some
          simp only [Operation.apply, Store.replace, replaceRows, complete]
      | remove path =>
          rw [Operation.after_remove]
          exact ⟨.shelf (store.remove path), rfl, store.entries_remove path⟩
      | clear =>
          rw [Operation.after_clear]
          exact ⟨.shelf Shelf.empty, rfl, rfl⟩
      | snapshot =>
          rw [Operation.after_snapshot]
          exact ⟨.shelf store.takeSnapshot.2, rfl, store.entries_takeSnapshot⟩
  | ledger store =>
      have held : store.definitions = record.flatMap (·.2) := keeps
      have removed (path : String) : (store.remove path).definitions =
          (record.filter (·.1 != path)).flatMap (·.2) := by
        rw [Ledger.definitions_remove, held, sound.filter_file]
      cases operation with
      | replace path definitions =>
          have fit : ∀ definition ∈ definitions,
              Ledger.fits definition.line = true :=
            fun definition member => (proper definition member).2
          refine ⟨.ledger ((store.remove path).append definitions), ?_, ?_⟩
          · simp only [Operation.apply, Store.replace, replaceRows,
              store.replace_ofDefinition fit path]
            rfl
          · change ((store.remove path).append definitions).definitions = _
            rw [Ledger.definitions_append, removed, Operation.after_replace,
              List.flatMap_append]
            cases definitions with
            | nil => rfl
            | cons first rest => simp
      | remove path =>
          rw [Operation.after_remove]
          exact ⟨.ledger (store.remove path), rfl, removed path⟩
      | clear =>
          rw [Operation.after_clear]
          exact ⟨.ledger store.clear, rfl, rfl⟩
      | snapshot =>
          rw [Operation.after_snapshot]
          exact ⟨.ledger store, rfl, keeps⟩

/-- Operations on an empty store leave in it what stands of them. -/
theorem Keeps.run
    {store : Store}
    (empty : store.Keeps [])
    {operations : List Operation}
    (proper : ∀ operation ∈ operations, operation.IsProper) :
    Record.Sound (Operation.standing operations) ∧
      ∃ last, Operation.run operations store = .ok last ∧
        last.Keeps (Operation.standing operations) := by
  induction operations using List.reverseRecOn with
  | nil => exact ⟨⟨List.nodup_nil, nofun, nofun⟩, store, rfl, empty⟩
  | append_singleton operations last ih =>
      obtain ⟨sound, before, ran, keeps⟩ :=
        ih fun operation member =>
          proper operation (List.mem_append_left _ member)
      have properLast := proper last (by simp)
      obtain ⟨next, applied, keepsNext⟩ := keeps.apply sound properLast
      rw [Operation.standing_concat]
      refine ⟨sound.after properLast, next, ?_, keepsNext⟩
      calc
        Operation.run (operations ++ [last]) store =
            Operation.run operations store >>= fun reached =>
              last.apply reached >>= pure := by
          rw [Operation.run, List.foldlM_append]
          rfl
        _ = .ok next := by
          rw [ran]
          change (last.apply before >>= pure) = _
          rw [applied]
          rfl

/-- All that can be asked of a store, and of a snapshot that is taken of it. -/
structure View where
  files : List String
  names : List Text
  lookup : Text → List Definition
  size : Nat
  snapshotNames : List Text
  snapshotLookup : Text → List Definition
  snapshotSize : Nat

def view (store : Store) : View where
  files := store.files
  names := store.names
  lookup := store.lookup
  size := store.size
  snapshotNames := store.takeSnapshot.1.names
  snapshotLookup := store.takeSnapshot.1.lookup
  snapshotSize := store.takeSnapshot.1.size

/-- The answers that a record gives: files in its order, and definitions by file
and by position within the file. -/
def Record.view (record : Record) : View :=
  let definitions := record.flatMap (·.2)
  let names := (definitions.map (·.name)).eraseDups
  let lookup (name : Text) := definitions.filter (·.name = name)
  ⟨record.map (·.1), names, lookup, definitions.length, names, lookup,
    definitions.length⟩

theorem Keeps.view_eq
    {store : Store} {record : Record}
    (keeps : store.Keeps record)
    (sound : record.Sound) :
    store.view = record.view := by
  cases store with
  | shelf store =>
      obtain rfl : store.entries = record := keeps
      have snapshot : store.takeSnapshot.1 = ⟨store.entries.flatMap (·.2)⟩ :=
        store.snapshot_eq
      have lookup (name : Text) : Store.lookup (.shelf store) name =
          (store.entries.flatMap (·.2)).filter (·.name = name) := by
        rw [Store.lookup, Shelf.snapshot, snapshot]
        rfl
      simp only [Store.view, Record.view, View.mk.injEq, Store.files,
        Store.names, Store.size, Store.takeSnapshot, Shelf.snapshot, snapshot]
      exact ⟨rfl, rfl, funext lookup, rfl, rfl, rfl, rfl⟩
  | ledger store =>
      have held : store.definitions = record.flatMap (·.2) := keeps
      have snapshot : store.snapshot = ⟨record.flatMap (·.2)⟩ := by
        rw [Ledger.snapshot, Ledger.select_eq,
          List.filter_eq_self.mpr fun _ _ => rfl, held]
      have size : store.size = (record.flatMap (·.2)).length := by
        rw [← held, Ledger.definitions, List.length_map]
        rfl
      have files : store.files = record.map (·.1) := by
        rw [Ledger.files, Ledger.groups_eq, held, sound.eraseDups_file]
      have names : store.names =
          ((record.flatMap (·.2)).map (·.name)).eraseDups := by
        rw [Ledger.names, Ledger.groups_eq, held]
      have lookup (name : Text) :
          store.lookup name =
            (record.flatMap (·.2)).filter (·.name = name) := by
        rw [Ledger.lookup, Ledger.select_eq, held]
      simp only [Store.view, Record.view, View.mk.injEq, Store.files,
        Store.names, Store.size, Store.takeSnapshot, snapshot, size,
        files, names]
      exact ⟨trivial, trivial, funext lookup, trivial, rfl, rfl, rfl⟩

/-- After any operations, a shelf and a ledger show what stands of the
history. -/
theorem view_run_eq
    (operations : List Operation)
    (proper : ∀ operation ∈ operations, operation.IsProper) :
    ∃ onShelf inLedger,
      Operation.run operations (.shelf Shelf.empty) = .ok onShelf ∧
      Operation.run operations (.ledger Ledger.empty) = .ok inLedger ∧
      onShelf.view = inLedger.view ∧
      inLedger.view = Record.view (Operation.standing operations) := by
  have emptyShelf : Keeps [] (.shelf Shelf.empty) := rfl
  have emptyLedger : Keeps [] (.ledger Ledger.empty) := rfl
  obtain ⟨sound, onShelf, ranShelf, keepsShelf⟩ := emptyShelf.run proper
  obtain ⟨_, inLedger, ranLedger, keepsLedger⟩ := emptyLedger.run proper
  refine ⟨onShelf, inLedger, ranShelf, ranLedger, ?_, keepsLedger.view_eq sound⟩
  rw [keepsShelf.view_eq sound, keepsLedger.view_eq sound]

/-- A file that is replaced and moves behind another, one that is emptied, one
that is not there, and a snapshot between changes. -/
def reworking : List Operation :=
  [.replace "a.h" [⟨"X".toList, none, "1".toList, "a.h", 1, true⟩,
      ⟨"Y".toList, some ["x".toList], "x".toList, "a.h", 2, true⟩],
    .replace "b.h" [⟨"X".toList, none, "3".toList, "b.h", 1, true⟩],
    .replace "c.h" [⟨"Z".toList, none, "4".toList, "c.h", -1, false⟩],
    .snapshot,
    .replace "a.h" [⟨"X".toList, none, "5".toList, "a.h", 7, true⟩],
    .remove "missing.h",
    .replace "c.h" []]

theorem view_run_eq_reworking :
    (∀ operation ∈ reworking, operation.IsProper) ∧
      Operation.standing reworking =
        [("b.h", [⟨"X".toList, none, "3".toList, "b.h", 1, true⟩]),
          ("a.h", [⟨"X".toList, none, "5".toList, "a.h", 7, true⟩])] ∧
      ∃ onShelf inLedger,
        Operation.run reworking (.shelf Shelf.empty) = .ok onShelf ∧
        Operation.run reworking (.ledger Ledger.empty) = .ok inLedger ∧
        onShelf.view = inLedger.view ∧
        inLedger.view = Record.view (Operation.standing reworking) := by
  have proper : ∀ operation ∈ reworking, operation.IsProper := by decide
  exact ⟨proper, by decide, view_run_eq reworking proper⟩

end Store

end MacroTrace
