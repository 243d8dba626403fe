import Mathlib.Logic.Function.Basic
import MacroTrace.Proofs.Detection
import MacroTrace.Proofs.FileTree
import MacroTrace.Proofs.History
import MacroTrace.Proofs.PhysicalLines

/-!
# Scanning again

Reading the files that have changed leaves in a store what a scan of the whole
project would put there.  A scan writes the definitions of each source under its
path, and so does reading a file again, so all that counts is which locations
are written and what is at them.  The two differ at files in excluded
directories: these are read again when they are named, but never found.
-/

namespace MacroTrace

theorem Utf8.length_piecesFrom_le (found : List Piece) (bytes : List UInt8) :
    (piecesFrom found bytes).length ≤ found.length + bytes.length := by
  fun_induction piecesFrom found bytes with
  | case1 found => simp
  | case2 found lead rest piece count _ ih =>
      simp only [List.length_cons, List.length_drop] at ih ⊢
      omega

theorem Utf8.length_unifyLineEndsFrom_le (written text : Text) :
    (unifyLineEndsFrom written text).length ≤ written.length + text.length := by
  fun_induction unifyLineEndsFrom written text with
  | case1 written => simp
  | case2 written rest ih =>
      simp only [List.length_cons] at ih ⊢
      omega
  | case3 written c rest _ ih =>
      simp only [List.length_cons] at ih ⊢
      omega

theorem Utf8.length_sourceText_le (bytes : List UInt8) :
    (sourceText bytes).length ≤ bytes.length := by
  have decoded : (decodeLossy bytes).length ≤ bytes.length := by
    have cut := length_piecesFrom_le [] bytes
    rw [List.length_nil, Nat.zero_add] at cut
    rw [decodeLossy, List.length_map]
    exact cut
  have unified := length_unifyLineEndsFrom_le [] (decodeLossy bytes)
  rw [List.length_nil, Nat.zero_add] at unified
  exact unified.trans decoded

theorem Line.length_allFrom_le (found : List Line) (current text : Text) :
    (allFrom found current text).length ≤ found.length + text.length + 1 := by
  induction text generalizing found current with
  | nil => simp [allFrom]
  | cons c rest ih =>
      rw [allFrom]
      split
      next =>
        have later := ih (ofReversed current :: found) []
        simp only [List.length_cons] at later ⊢
        omega
      next =>
        have later := ih found (c :: current)
        simp only [List.length_cons] at later ⊢
        omega

namespace Extraction

/-- The definitions of a text name its path, and a line of it. -/
theorem mem_ofText
    {path : String} {detectTypes : Bool} {text : Text}
    {definition : Definition}
    (member : definition ∈ (ofText path detectTypes text).definitions) :
    definition.file = path ∧ 0 ≤ definition.line ∧
      definition.line ≤ text.length + 1 := by
  obtain ⟨line, joined, adds⟩ := exists_adds member
  obtain ⟨named, same⟩ := adds.origin
  obtain ⟨front, run, back, joins⟩ := LogicalLine.exists_joins joined
  have physical := Line.length_allFrom_le [] [] (Comment.blank text)
  have bound : line.first ≤ text.length + 1 := by
    have first := joins.first_le
    rw [Line.all] at first
    rw [(Comment.hidden_blank text).length_eq]
    rw [List.length_nil, Nat.zero_add] at physical
    exact first.trans physical
  rw [show definition.line = line.first from same]
  exact ⟨named, by omega, by omega⟩

end Extraction

namespace Store

/-- The definitions that a store holds for a path. -/
def held (store : Store) (path : String) : List Definition :=
  store.snapshot.definitions.filter (·.file = path)

theorem Keeps.snapshot_eq
    {store : Store} {record : Record}
    (keeps : store.Keeps record) :
    store.snapshot = ⟨record.flatMap (·.2)⟩ := by
  cases store with
  | shelf store =>
      obtain rfl : store.entries = record := keeps
      exact store.snapshot_eq
  | ledger store =>
      have entered : store.definitions = record.flatMap (·.2) := keeps
      change store.snapshot = _
      rw [Ledger.snapshot, Ledger.select_eq,
        List.filter_eq_self.mpr fun _ _ => rfl, entered]

/-- A store with some contents: for every path the definitions that it holds. -/
def Holds (contents : String → List Definition) (store : Store) : Prop :=
  ∃ record, store.Keeps record ∧ Record.Sound record ∧
    ∀ path, (record.flatMap (·.2)).filter (·.file = path) = contents path

variable {store : Store} {contents : String → List Definition}

theorem Keeps.holds_nil
    (empty : store.Keeps []) :
    store.Holds fun _ => [] :=
  ⟨[], empty, ⟨List.nodup_nil, nofun, nofun⟩, fun _ => rfl⟩

theorem Holds.held_eq
    (holds : store.Holds contents)
    (path : String) :
    store.held path = contents path := by
  obtain ⟨record, keeps, _, same⟩ := holds
  rw [held, keeps.snapshot_eq]
  exact same path

theorem filter_file_of_ne
    (definitions : List Definition)
    {path other : String}
    (apart : other ≠ path) :
    (definitions.filter (·.file != path)).filter (·.file = other) =
      definitions.filter (·.file = other) := by
  rw [List.filter_filter]
  apply List.filter_congr
  intro definition _
  by_cases here : definition.file = other
  · simp [here, apart]
  · simp [here]

theorem filter_file_self (definitions : List Definition) (path : String) :
    (definitions.filter (·.file != path)).filter (·.file = path) = [] := by
  simp [List.filter_filter]

theorem Holds.replace
    (holds : store.Holds contents)
    {path : String} {definitions : List Definition}
    (proper : ∀ definition ∈ definitions,
      definition.file = path ∧ Ledger.fits definition.line = true) :
    ∃ next,
      store.replace path definitions = .ok next ∧
        next.Holds (Function.update contents path definitions) := by
  obtain ⟨record, keeps, sound, same⟩ := holds
  have proper' : (Operation.replace path definitions).IsProper := proper
  obtain ⟨next, applied, keepsNext⟩ := keeps.apply sound proper'
  refine ⟨next, applied, _, keepsNext, sound.after proper', ?_⟩
  have entered :
      (if definitions.isEmpty then [] else [(path, definitions)]).flatMap
        (fun file : String × List Definition => file.2) = definitions := by
    cases definitions with
    | nil => rfl
    | cons first rest => simp
  intro other
  rw [Operation.after_replace, List.flatMap_append, entered,
    ← sound.filter_file, List.filter_append]
  by_cases here : other = path
  · have own : definitions.filter (·.file = path) = definitions := by
      apply List.filter_eq_self.mpr
      intro definition member
      simpa using (proper definition member).1
    rw [here, filter_file_self, own, Function.update_self, List.nil_append]
  · have foreign : definitions.filter (·.file = other) = [] := by
      apply List.filter_eq_nil_iff.mpr
      intro definition member
      simpa [(proper definition member).1] using Ne.symm here
    rw [filter_file_of_ne _ here, foreign, List.append_nil, same,
      Function.update_of_ne here]

theorem Holds.remove
    (holds : store.Holds contents)
    (path : String) :
    (store.remove path).Holds (Function.update contents path []) := by
  obtain ⟨record, keeps, sound, same⟩ := holds
  have proper : (Operation.remove path).IsProper := trivial
  obtain ⟨next, applied, keepsNext⟩ := keeps.apply sound proper
  cases applied
  refine ⟨_, keepsNext, sound.after proper, ?_⟩
  intro other
  rw [Operation.after_remove, ← sound.filter_file]
  by_cases here : other = path
  · rw [here, filter_file_self, Function.update_self]
  · rw [filter_file_of_ne _ here, same, Function.update_of_ne here]

end Store

namespace Project

/-- The definitions of the source file at a location; none if there is no source
file. -/
def definitionsAt (disk : Disk) (root : Location) (detectTypes : Bool)
    (location : Location) :
    List Definition :=
  if location.getLast?.any isSource then
    match disk.file? location with
    | some bytes =>
        (Extraction.ofText (location.below root) detectTypes
          (Utf8.sourceText bytes)).definitions
    | none => []
  else []

/-- The contents of a store after something was written for locations, one after
another. -/
def written (root : Location) (made : Location → List Definition)
    (locations : List Location) (contents : String → List Definition) : String →
      List Definition :=
  locations.foldl
    (fun contents location => Function.update contents (location.below root)
      (made location))
    contents

theorem written_eq
    {root : Location} {made : Location → List Definition}
    {locations : List Location} {contents : String → List Definition}
    {path : String} {value : List Definition}
    (agree : ∀ location ∈ locations, location.below root = path →
      made location = value)
    (set : (∃ location ∈ locations, location.below root = path) ∨
      contents path = value) :
    written root made locations contents path = value := by
  induction locations generalizing contents with
  | nil =>
      rcases set with ⟨location, member, _⟩ | initial
      · cases member
      · exact initial
  | cons first rest ih =>
      rw [written, List.foldl_cons]
      apply ih
      · exact fun location member =>
          agree location (List.mem_cons_of_mem _ member)
      · by_cases here : first.below root = path
        · right
          rw [here, Function.update_self]
          exact agree first List.mem_cons_self here
        · rw [Function.update_of_ne (Ne.symm here)]
          rcases set with ⟨location, member, same⟩ | initial
          · rcases List.mem_cons.mp member with rfl | later
            · exact absurd same here
            · exact .inl ⟨location, later, same⟩
          · exact .inr initial

section Written

variable {disk : Disk} {root : Location} {detectTypes : Bool}
  {location : Location}
variable {scan : Scan} {contents : String → List Definition}

theorem proper_ofText
    (plain : disk.Plain)
    {bytes : List UInt8}
    (found : disk.file? location = some bytes)
    (path : String) (detectTypes : Bool) :
    ∀ definition ∈ (Extraction.ofText path detectTypes
      (Utf8.sourceText bytes)).definitions,
      definition.file = path ∧ Ledger.fits definition.line = true := by
  intro definition member
  obtain ⟨named, positive, bound⟩ := Extraction.mem_ofText member
  refine ⟨named, ?_⟩
  have node : disk.node? location = some (.file bytes) := by
    unfold Disk.file? at found
    split at found
    next same => cases found; exact same
    next => cases found
  have present : location ≠ [] := by
    rintro rfl
    cases node
  have size : bytes.length < Disk.maxFileSize :=
    plain.sized _ (Disk.mem_of_node? present node)
  have length := Utf8.length_sourceText_le bytes
  rw [Disk.maxFileSize] at size
  rw [Ledger.fits, Bool.and_eq_true, decide_eq_true_eq, decide_eq_true_eq]
  omega

theorem enterFile_holds
    (plain : disk.Plain)
    (present : location ≠ [])
    (proper : location.IsProper)
    (source : location.getLast?.any isSource = true)
    (file : (disk.file? location).isSome = true)
    (holds : scan.store.Holds contents) :
    ∃ next,
      enterFile disk root detectTypes location scan = .ok next ∧
        next.store.Holds (Function.update contents (location.below root)
          (definitionsAt disk root detectTypes location)) := by
  rcases plain.read_cases present proper with
    ⟨bytes, found, read⟩ | ⟨missing, _⟩
  · obtain ⟨next, replaced, holdsNext⟩ := holds.replace
      (proper_ofText plain found (location.below root) detectTypes)
    rw [enterFile, read, definitionsAt, if_pos source, found]
    simp only [enterText, replaced]
    exact ⟨_, rfl, holdsNext⟩
  · rw [missing] at file
    cases file

theorem rescanFile_holds
    (plain : disk.Plain)
    (present : location ≠ [])
    (proper : location.IsProper)
    (holds : scan.store.Holds contents) :
    ∃ next,
      rescanFile disk root detectTypes location scan = .ok next ∧
        next.store.Holds (Function.update contents (location.below root)
          (definitionsAt disk root detectTypes location)) := by
  by_cases source : location.getLast?.any isSource = true
  · rw [rescanFile, if_pos source, isFile_eq plain present proper]
    by_cases file : (disk.file? location).isSome = true
    · obtain ⟨next, entered, holdsNext⟩ :=
        enterFile_holds plain present proper source file holds
      refine ⟨next, ?_, holdsNext⟩
      simp only [bind, Except.bind, file, if_true, entered]
      rfl
    · have missing : disk.file? location = none := by simpa using file
      rw [definitionsAt, if_pos source, missing]
      exact ⟨_, by simp [bind, Except.bind]; rfl, holds.remove _⟩
  · rw [rescanFile, if_neg source, definitionsAt, if_neg source]
    exact ⟨_, rfl, holds.remove _⟩

theorem enterFiles_holds
    (plain : disk.Plain)
    {locations : List Location}
    (sources : ∀ location ∈ locations,
      location ≠ [] ∧ location.IsProper ∧
        location.getLast?.any isSource = true ∧
        (disk.file? location).isSome = true)
    (holds : scan.store.Holds contents) :
    ∃ next,
      enterFiles disk root detectTypes locations scan = .ok next ∧
        next.store.Holds
          (written root (definitionsAt disk root detectTypes)
            locations contents) := by
  induction locations generalizing scan contents with
  | nil => exact ⟨scan, rfl, holds⟩
  | cons first rest ih =>
      obtain ⟨present, proper, source, file⟩ := sources first List.mem_cons_self
      obtain ⟨second, entered, holdsSecond⟩ :=
        enterFile_holds plain present proper source file holds
      obtain ⟨next, enteredRest, holdsNext⟩ :=
        ih (fun location member =>
            sources location (List.mem_cons_of_mem _ member)) holdsSecond
      refine ⟨next, ?_, holdsNext⟩
      rw [enterFiles, List.foldlM_cons, entered]
      exact enteredRest

/-- The contents that a scan gives an empty store. -/
def scanned (disk : Disk) (root : Location) (excludes : List String)
    (detectTypes : Bool) :
    String → List Definition :=
  written root (definitionsAt disk root detectTypes)
    (sources disk excludes root) fun _ => []

theorem proper_of_mem_sources
    (plain : disk.Plain)
    {excludes : List String}
    (member : location ∈ sources disk excludes root) :
    location ≠ [] ∧ location.IsProper := by
  obtain ⟨inside, below, _, _, file⟩ := (mem_sources_iff plain _ _ _).mp member
  have present : location ≠ [] := by
    rintro rfl
    exact below (List.prefix_nil.mp inside).symm
  exact ⟨present, plain.proper_of_node? present (isSome_node?_of_file? file)⟩

theorem find_holds
    (plain : disk.Plain)
    (root : Location) (excludes : List String) (detectTypes : Bool)
    {store : Store}
    (empty : store.Keeps []) :
    ∃ scan,
      find disk root excludes detectTypes store = .ok scan ∧
        scan.store.Holds (scanned disk root excludes detectTypes) := by
  have found : ∀ location ∈ sources disk excludes root,
      location ≠ [] ∧ location.IsProper ∧
        location.getLast?.any isSource = true ∧
        (disk.file? location).isSome = true := by
    intro location member
    obtain ⟨present, proper⟩ := proper_of_mem_sources plain member
    obtain ⟨_, _, _, source, file⟩ := (mem_sources_iff plain _ _ _).mp member
    exact ⟨present, proper, source, file⟩
  have start : (Scan.mk store [] []).store.Holds fun _ => [] := empty.holds_nil
  obtain ⟨scan, entered, holds⟩ := enterFiles_holds plain found start
  rw [find, entered]
  exact ⟨_, rfl, holds⟩

/-- The contents for a location are those of its file, unless the location is
hidden. -/
theorem scanned_below
    (plain : disk.Plain)
    (excludes : List String) (detectTypes : Bool)
    (inside : root <+: location)
    (below : location ≠ root)
    (proper : location.IsProper) :
    scanned disk root excludes detectTypes (location.below root) =
      if IsHidden excludes root location then []
      else definitionsAt disk root detectTypes location := by
  -- No other location has the same path.
  have unique (other : Location) (member : other ∈ sources disk excludes root)
      (same : other.below root = location.below root) : other = location := by
    obtain ⟨insideOther, _⟩ := (mem_sources_iff plain _ _ _).mp member
    exact Location.below_injective insideOther inside
      (proper_of_mem_sources plain member).2.named proper.named same
  by_cases member : location ∈ sources disk excludes root
  · obtain ⟨_, _, shown, _⟩ := (mem_sources_iff plain _ _ _).mp member
    rw [if_neg shown]
    apply written_eq
    · intro other otherMember same
      rw [unique other otherMember same]
    · exact .inl ⟨location, member, rfl⟩
  · have nothing : (if IsHidden excludes root location then []
        else definitionsAt disk root detectTypes location) = [] := by
      split
      next => rfl
      next shown =>
        rw [definitionsAt]
        split
        next source =>
          split
          next bytes file =>
            have found : (disk.file? location).isSome = true := by
              rw [file]
              rfl
            exact absurd ((mem_sources_iff plain _ _ _).mpr
              ⟨inside, below, shown, source, found⟩) member
          next => rfl
        next => rfl
    rw [nothing]
    apply written_eq
    · intro other otherMember same
      rw [unique other otherMember same] at otherMember
      exact absurd otherMember member
    · exact .inr rfl

theorem scanned_eq_nil
    (plain : disk.Plain)
    (excludes : List String) (detectTypes : Bool)
    {path : String}
    (nowhere : ∀ location : Location, root <+: location → location ≠ root →
      location.IsProper →
      location.below root ≠ path) :
    scanned disk root excludes detectTypes path = [] := by
  apply written_eq
  · intro location member same
    obtain ⟨inside, below, _⟩ := (mem_sources_iff plain _ _ _).mp member
    exact absurd same
      (nowhere location inside below (proper_of_mem_sources plain member).2)
  · exact .inr rfl

theorem definitionsAt_congr
    {other : Disk}
    (root : Location) (detectTypes : Bool)
    (same : disk.file? location = other.file? location) :
    definitionsAt disk root detectTypes location =
      definitionsAt other root detectTypes location := by
  rw [definitionsAt, definitionsAt, same]

/-- A path below a root. -/
structure Leads (root : Location) (path : String) : Prop where
  null : '\x00' ∉ path.toList
  inside : root <+: Location.ofPath root path
  below : Location.ofPath root path ≠ root
  proper : (Location.ofPath root path).IsProper

theorem Leads.present
    {path : String}
    (leads : Leads root path) :
    Location.ofPath root path ≠ [] := by
  intro top
  have inside := leads.inside
  rw [top] at inside
  apply leads.below
  rw [top, List.prefix_nil.mp inside]

theorem changeFiles_holds
    (plain : disk.Plain)
    {paths : List String}
    (leads : ∀ path ∈ paths, Leads root path)
    (holds : scan.store.Holds contents) :
    ∃ next,
      changeFiles disk root (rescanFile disk root detectTypes) scan paths =
        (next, none) ∧
        next.store.Holds (written root (definitionsAt disk root detectTypes)
          (paths.map (Location.ofPath root)) contents) := by
  induction paths generalizing scan contents with
  | nil => exact ⟨scan, rfl, holds⟩
  | cons path rest ih =>
      have first := leads path List.mem_cons_self
      obtain ⟨second, changed, holdsSecond⟩ :=
        rescanFile_holds plain first.present first.proper holds
      obtain ⟨next, changedRest, holdsNext⟩ :=
        ih (fun other member => leads other (List.mem_cons_of_mem _ member))
          holdsSecond
      refine ⟨next, ?_, holdsNext⟩
      rw [changeFiles, plain.resolve_eq root first.null]
      simp only [changed]
      exact changedRest

end Written

section Changed

variable {before after : Disk} {root : Location} {paths : List String}

/-- Two scans of a project differ only at the paths that have changed. -/
theorem scanned_congr
    (plainBefore : before.Plain)
    (plainAfter : after.Plain)
    (unchanged : ∀ location, root <+: location →
      (∀ path ∈ paths, location ≠ Location.ofPath root path) →
        before.file? location = after.file? location)
    (excludes : List String) (detectTypes : Bool)
    {path : String}
    (other : ∀ changed ∈ paths, (Location.ofPath root changed).below root ≠
      path) :
    scanned before root excludes detectTypes path =
      scanned after root excludes detectTypes path := by
  by_cases somewhere : ∃ location : Location,
      root <+: location ∧ location ≠ root ∧ location.IsProper ∧
        location.below root = path
  · obtain ⟨location, inside, below, proper, rfl⟩ := somewhere
    have same : before.file? location = after.file? location := by
      apply unchanged location inside
      rintro changed member rfl
      exact other changed member rfl
    rw [scanned_below plainBefore excludes detectTypes inside below proper,
      scanned_below plainAfter excludes detectTypes inside below proper,
      definitionsAt_congr root detectTypes same]
  · have nowhere : ∀ location : Location, root <+: location → location ≠ root →
        location.IsProper →
        location.below root ≠ path :=
      fun location inside below proper same =>
        somewhere ⟨location, inside, below, proper, same⟩
    rw [scanned_eq_nil plainBefore excludes detectTypes nowhere,
      scanned_eq_nil plainAfter excludes detectTypes nowhere]

/-- Reading a changed file again leaves its definitions, wherever it is. -/
theorem written_of_mem
    (leads : ∀ path ∈ paths, Leads root path)
    (made : Location → List Definition) (contents : String → List Definition)
    {changed : String}
    (member : changed ∈ paths) :
    written root made (paths.map (Location.ofPath root)) contents
        ((Location.ofPath root changed).below root) =
      made (Location.ofPath root changed) := by
  have here := leads changed member
  apply written_eq
  · intro location listed same
    obtain ⟨other, otherMember, rfl⟩ := List.mem_map.mp listed
    have there := leads other otherMember
    rw [Location.below_injective there.inside here.inside there.proper.named
      here.proper.named same]
  · exact .inl ⟨_, List.mem_map_of_mem member, rfl⟩

theorem written_of_not_mem
    (made : Location → List Definition) (contents : String → List Definition)
    {path : String}
    (other : ∀ changed ∈ paths, (Location.ofPath root changed).below root ≠
      path) :
    written root made (paths.map (Location.ofPath root)) contents path =
      contents path := by
  apply written_eq
  · intro location listed same
    obtain ⟨changed, member, rfl⟩ := List.mem_map.mp listed
    exact absurd same (other changed member)
  · exact .inr rfl

theorem exists_rescan
    (plainBefore : before.Plain)
    (plainAfter : after.Plain)
    (leads : ∀ path ∈ paths, Leads root path)
    (excludes : List String) (detectTypes : Bool)
    {store : Store}
    (empty : store.Keeps []) :
    ∃ scan again,
      find before root excludes detectTypes store = .ok scan ∧
        rescan after root detectTypes paths scan.store = (again, none) ∧
        again.store.Holds (written root (definitionsAt after root detectTypes)
          (paths.map (Location.ofPath root))
          (scanned before root excludes detectTypes)) := by
  obtain ⟨scan, found, holds⟩ :=
    find_holds plainBefore root excludes detectTypes empty
  have start : (Scan.mk scan.store [] []).store.Holds _ := holds
  obtain ⟨again, rescanned, holdsAgain⟩ :=
    changeFiles_holds plainAfter leads start
  exact ⟨scan, again, found, rescanned, holdsAgain⟩

/-- After a scan of a project and a change of some files, reading these again
leaves in the store what a scan of the changed project would find, except that
excluded directories do not hide the files that are read again. -/
theorem held_rescan
    (plainBefore : before.Plain)
    (plainAfter : after.Plain)
    (leads : ∀ path ∈ paths, Leads root path)
    (unchanged : ∀ location, root <+: location →
      (∀ path ∈ paths, location ≠ Location.ofPath root path) →
        before.file? location = after.file? location)
    (excludes : List String) (detectTypes : Bool)
    {store : Store}
    (empty : store.Keeps []) :
    ∃ scan again full whole,
      find before root excludes detectTypes store = .ok scan ∧
        rescan after root detectTypes paths scan.store = (again, none) ∧
        find after root excludes detectTypes store = .ok full ∧
        find after root [] detectTypes store = .ok whole ∧
        (∀ path, again.store.held path =
          if path ∈
            paths.map (fun path => (Location.ofPath root path).below root) then
            whole.store.held path
          else full.store.held path) ∧
        ((∀ path ∈ paths,
          ¬ IsHidden excludes root (Location.ofPath root path)) →
          ∀ path, again.store.held path = full.store.held path) := by
  obtain ⟨scan, again, found, rescanned, holdsAgain⟩ :=
    exists_rescan plainBefore plainAfter leads excludes detectTypes empty
  obtain ⟨full, foundFull, holdsFull⟩ :=
    find_holds plainAfter root excludes detectTypes empty
  obtain ⟨whole, foundWhole, holdsWhole⟩ :=
    find_holds plainAfter root [] detectTypes empty
  have changedHeld {changed : String} (member : changed ∈ paths) :
      again.store.held ((Location.ofPath root changed).below root) =
        definitionsAt after root detectTypes
          (Location.ofPath root changed) := by
    rw [holdsAgain.held_eq, written_of_mem leads _ _ member]
  have otherHeld {path : String}
      (other : ∀ changed ∈ paths, (Location.ofPath root changed).below root ≠
        path) :
      again.store.held path = full.store.held path := by
    rw [holdsAgain.held_eq, written_of_not_mem _ _ other, holdsFull.held_eq,
      scanned_congr plainBefore plainAfter unchanged excludes detectTypes other]
  have fullHeld {changed : String} (member : changed ∈ paths) :
      full.store.held ((Location.ofPath root changed).below root) =
        if IsHidden excludes root (Location.ofPath root changed) then []
        else
          definitionsAt after root detectTypes
            (Location.ofPath root changed) := by
    have here := leads changed member
    rw [holdsFull.held_eq,
      scanned_below plainAfter _ _ here.inside here.below here.proper]
  refine ⟨scan, again, full, whole, found, rescanned, foundFull,
    foundWhole, ?_, ?_⟩
  · intro path
    split
    next listed =>
      obtain ⟨changed, member, rfl⟩ := List.mem_map.mp listed
      have here := leads changed member
      have shown : ¬ IsHidden [] root (Location.ofPath root changed) := by
        simp [IsHidden]
      rw [changedHeld member, holdsWhole.held_eq,
        scanned_below plainAfter _ _ here.inside here.below here.proper,
        if_neg shown]
    next unlisted =>
      apply otherHeld
      intro changed member same
      exact unlisted (List.mem_map.mpr ⟨changed, member, same⟩)
  · intro shown path
    by_cases listed : ∃ changed ∈ paths,
      (Location.ofPath root changed).below root = path
    · obtain ⟨changed, member, rfl⟩ := listed
      rw [changedHeld member, fullHeld member, if_neg (shown changed member)]
    · apply otherHeld
      intro changed member same
      exact listed ⟨changed, member, same⟩

end Changed

theorem file?_append_congr
    (common : List (Location × Node))
    {left right : List (Location × Node)} {location : Location}
    (leftOther : ∀ entry ∈ left, location ≠ entry.1)
    (rightOther : ∀ entry ∈ right, location ≠ entry.1) :
    (Disk.mk (common ++ left)).file? location =
      (Disk.mk (common ++ right)).file? location := by
  have none {nodes : List (Location × Node)}
      (other : ∀ entry ∈ nodes, location ≠ entry.1) :
      nodes.lookup location = none := by
    apply List.lookup_eq_none_iff.mpr
    intro entry member
    simpa using other entry member
  rw [Disk.file?, Disk.file?, Disk.node?, Disk.node?, List.lookup_append,
    List.lookup_append, none leftOther, none rightOther]

def fileOf (text : String) : Node :=
  .file (text.toList.map fun c => UInt8.ofNat c.toNat)

/-- What stays when the files of a project change. -/
def stable : List (Location × Node) :=
  [(["p"], .directory),
    (["p", "lib"], .directory),
    (["p", "lib", "keep.h"], fileOf "#define KEEP 1")]

def oldFiles : List (Location × Node) :=
  [(["p", "edit.h"], fileOf "#define OLD 1"),
    (["p", "gone.c"], fileOf "#define GONE 1")]

/-- One file is edited, one is removed, and two are made. -/
def newFiles : List (Location × Node) :=
  [(["p", "edit.h"], fileOf "#define NEW 1\n#define MORE 2"),
    (["p", "lib", "made.hpp"], fileOf "typedef int MADE;"),
    (["p", "notes.txt"], fileOf "#define NOTE 1")]

def editedPaths : List String :=
  ["edit.h", "./gone.c", "lib//made.hpp", "lib/../notes.txt"]

theorem held_rescan_edited :
    Disk.Plain ⟨stable ++ oldFiles⟩ ∧
      Disk.Plain ⟨stable ++ newFiles⟩ ∧
      (∀ path ∈ editedPaths, Leads ["p"] path) ∧
      (∀ path ∈ editedPaths,
        ¬ IsHidden defaultExcludes ["p"] (Location.ofPath ["p"] path)) ∧
      ∃ scan again full,
        find ⟨stable ++ oldFiles⟩ ["p"] defaultExcludes true
          (.ledger Ledger.empty) = .ok scan ∧
          rescan ⟨stable ++ newFiles⟩ ["p"] true editedPaths scan.store =
            (again, none) ∧
          find ⟨stable ++ newFiles⟩ ["p"] defaultExcludes true
            (.ledger Ledger.empty) = .ok full ∧
          ∀ path, again.store.held path = full.store.held path := by
  have plainBefore : Disk.Plain ⟨stable ++ oldFiles⟩ :=
    ⟨by decide, by decide, by decide, by decide⟩
  have plainAfter : Disk.Plain ⟨stable ++ newFiles⟩ :=
    ⟨by decide, by decide, by decide, by decide⟩
  have leads : ∀ path ∈ editedPaths, Leads ["p"] path := by
    simp only [editedPaths, List.forall_mem_cons]
    refine ⟨?_, ?_, ?_, ?_, nofun⟩
    all_goals exact ⟨by decide, by decide, by decide, by decide⟩
  have shown : ∀ path ∈ editedPaths,
      ¬ IsHidden defaultExcludes ["p"] (Location.ofPath ["p"] path) := by decide
  have listed : ∀ entry ∈ oldFiles ++ newFiles,
      ∃ path ∈ editedPaths, entry.1 = Location.ofPath ["p"] path := by decide
  have unchanged : ∀ location, ["p"] <+: location →
      (∀ path ∈ editedPaths, location ≠ Location.ofPath ["p"] path) →
        (Disk.mk (stable ++ oldFiles)).file? location =
          (Disk.mk (stable ++ newFiles)).file? location := by
    intro location _ other
    have apart : ∀ entry ∈ oldFiles ++ newFiles, location ≠ entry.1 := by
      intro entry member same
      obtain ⟨path, changed, here⟩ := listed entry member
      exact other path changed (same.trans here)
    apply file?_append_congr
    · exact fun entry member => apart entry (List.mem_append_left _ member)
    · exact fun entry member => apart entry (List.mem_append_right _ member)
  have empty : Store.Keeps [] (.ledger Ledger.empty) := rfl
  obtain ⟨scan, again, full, _, found, rescanned, foundFull, _, _, agree⟩ :=
    held_rescan plainBefore plainAfter leads unchanged
      defaultExcludes true empty
  exact ⟨plainBefore, plainAfter, leads, shown, scan, again, full, found,
    rescanned, foundFull, agree shown⟩

/-- A directory that is excluded, and a source file in it. -/
def builtFiles : List (Location × Node) :=
  [(["p", "build"], .directory),
    (["p", "build", "gen.h"], fileOf "#define GEN 1")]

/-- A file in an excluded directory is read again when it is made, but a scan
does not find it. -/
theorem held_rescan_build :
    Disk.Plain ⟨stable⟩ ∧
      Disk.Plain ⟨stable ++ builtFiles⟩ ∧
      (∀ location, location ≠ Location.ofPath ["p"] "build/gen.h" →
        (Disk.mk stable).file? location =
          (Disk.mk (stable ++ builtFiles)).file? location) ∧
      ∃ scan again full,
        find ⟨stable⟩ ["p"] defaultExcludes true (.shelf Shelf.empty) =
          .ok scan ∧
          rescan ⟨stable ++ builtFiles⟩ ["p"] true ["build/gen.h"] scan.store =
            (again, none) ∧
          find ⟨stable ++ builtFiles⟩ ["p"] defaultExcludes true
            (.shelf Shelf.empty) = .ok full ∧
          again.store.held "build/gen.h" =
            [⟨"GEN".toList, none, "1".toList, "build/gen.h", 1, true⟩] ∧
          full.store.held "build/gen.h" = [] := by
  have plainBefore : Disk.Plain ⟨stable⟩ :=
    ⟨by decide, by decide, by decide, by decide⟩
  have plainAfter : Disk.Plain ⟨stable ++ builtFiles⟩ :=
    ⟨by decide, by decide, by decide, by decide⟩
  have leads : ∀ path ∈ ["build/gen.h"], Leads ["p"] path := by
    intro path member
    rw [List.mem_singleton.mp member]
    exact ⟨by decide, by decide, by decide, by decide⟩
  have here := leads "build/gen.h" List.mem_cons_self
  have hidden :
      IsHidden defaultExcludes ["p"] (Location.ofPath ["p"] "build/gen.h") := by
    decide
  have path : (Location.ofPath ["p"] "build/gen.h").below ["p"] =
      "build/gen.h" := by decide
  have empty : Store.Keeps [] (.shelf Shelf.empty) := rfl
  obtain ⟨scan, again, found, rescanned, holdsAgain⟩ :=
    exists_rescan plainBefore plainAfter leads defaultExcludes true empty
  obtain ⟨full, foundFull, holdsFull⟩ :=
    find_holds plainAfter ["p"] defaultExcludes true empty
  have heldAgain :=
    holdsAgain.held_eq ((Location.ofPath ["p"] "build/gen.h").below ["p"])
  have heldFull :=
    holdsFull.held_eq ((Location.ofPath ["p"] "build/gen.h").below ["p"])
  rw [written_of_mem leads _ _ List.mem_cons_self, path] at heldAgain
  rw [scanned_below plainAfter _ _ here.inside here.below here.proper,
    if_pos hidden, path] at heldFull
  refine ⟨plainBefore, plainAfter, ?_, scan, again, full, found, rescanned,
    foundFull, ?_, heldFull⟩
  · intro location other
    by_cases directory : location = ["p", "build"]
    · rw [directory]
      decide
    · have apart : ∀ entry ∈ builtFiles, location ≠ entry.1 := by
        simp only [builtFiles, List.forall_mem_cons]
        exact ⟨directory, other, nofun⟩
      have same : (Disk.mk (stable ++ [])).file? location =
          (Disk.mk (stable ++ builtFiles)).file? location :=
        file?_append_congr stable nofun apart
      rw [← same, List.append_nil]
  · rw [heldAgain]
    decide +kernel

end Project

end MacroTrace
