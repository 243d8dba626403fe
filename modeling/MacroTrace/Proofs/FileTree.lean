import MacroTrace.Project.Scan
import MacroTrace.Proofs.Spelling

/-!
# Plain file trees

A plain file tree holds no links, and every node of it lies in a directory.
There a path leads where its names say, a file is read by the path from the top
to it, and the sources of a project are the source files below the root that no
excluded directory hides.
-/

namespace MacroTrace

namespace Location

/-- A name that a directory can hold. -/
def IsName (name : String) : Prop :=
  name ≠ "" ∧ name ≠ "." ∧ name ≠ ".." ∧ '/' ∉ name.toList ∧
    '\x00' ∉ name.toList ∧
    name.utf8ByteSize ≤ Disk.maxNameSize

instance (name : String) : Decidable (IsName name) :=
  inferInstanceAs (Decidable (name ≠ "" ∧ name ≠ "." ∧ name ≠ ".." ∧
    '/' ∉ name.toList ∧
    '\x00' ∉ name.toList ∧ name.utf8ByteSize ≤ Disk.maxNameSize))

/-- A location that there can be, with a path from the top to it. -/
structure IsProper (location : Location) : Prop where
  named : ∀ name ∈ location, IsName name
  short : location.spelled.utf8ByteSize ≤ Disk.maxPathSize

instance (location : Location) : Decidable location.IsProper :=
  decidable_of_iff
    ((∀ name ∈ location, IsName name) ∧ location.spelled.utf8ByteSize ≤
      Disk.maxPathSize)
    ⟨fun ⟨named, short⟩ => ⟨named, short⟩, fun ⟨named, short⟩ => ⟨named, short⟩⟩

section Names

variable {location : Location}

theorem splitOn_intercalate
    (present : location ≠ [])
    (named : ∀ name ∈ location, IsName name) :
    Text.splitOn '/' (String.intercalate "/" location).toList =
      location.map String.toList := by
  cases location with
  | nil => exact absurd rfl present
  | cons name rest =>
      have free : ∀ other ∈ name :: rest, '/' ∉ other.toList :=
        fun other member => (named other member).2.2.2.1
      have freeRest : ∀ text ∈ rest.map String.toList, '/' ∉ [] ++ text := by
        intro text member
        obtain ⟨other, listed, rfl⟩ := List.mem_map.mp member
        exact free other (List.mem_cons_of_mem _ listed)
      have cut := Text.splitOn_joinWith (free name List.mem_cons_self) freeRest
      rw [String.toList_intercalate]
      simpa [Text.joinWith, Function.comp_def] using cut

/-- The names on the path to a location are those of the location, behind the
slash of the top. -/
theorem names_spelled
    (present : location ≠ [])
    (named : ∀ name ∈ location, IsName name) :
    names location.spelled = "" :: location := by
  have cut : Text.splitOn '/' location.spelled.toList =
      [] :: location.map String.toList := by
    have top :
        Text.splitOn '/'
            ([] ++ '/' :: (String.intercalate "/" location).toList) =
          [] :: Text.splitOn '/' (String.intercalate "/" location).toList :=
      Text.splitOn_append (by simp) _
    rw [splitOn_intercalate present named] at top
    rw [spelled, String.toList_append]
    exact top
  rw [names, cut]
  simp [Function.comp_def]

theorem names_joined
    (present : location ≠ [])
    (named : ∀ name ∈ location, IsName name) :
    names (joined location) = location := by
  have some : location.isEmpty = false := by simpa using present
  rw [joined, some, if_neg Bool.false_ne_true, names,
    splitOn_intercalate present named]
  simp [Function.comp_def]

theorem joined_injective
    {left right : List String}
    (leftNamed : ∀ name ∈ left, IsName name)
    (rightNamed : ∀ name ∈ right, IsName name)
    (same : joined left = joined right) :
    left = right := by
  -- A dot stands for no names, and it is no name itself.
  have dot {names : List String} (named : ∀ name ∈ names, IsName name)
      (present : names ≠ []) :
      joined names ≠ "." := by
    intro equal
    have read := names_joined present named
    rw [equal, show Location.names "." = ["."] by decide] at read
    exact (named "." (by simp [← read])).2.1 rfl
  by_cases leftNone : left = []
  · by_cases rightNone : right = []
    · rw [leftNone, rightNone]
    · rw [leftNone] at same
      exact absurd same.symm (dot rightNamed rightNone)
  · by_cases rightNone : right = []
    · rw [rightNone] at same
      exact absurd same (dot leftNamed leftNone)
    · rw [← names_joined leftNone leftNamed, same,
        names_joined rightNone rightNamed]

theorem below_append (root more : Location) :
    below (root ++ more) root = joined more := by
  simp [below]

/-- Below a root, different locations have different paths. -/
theorem below_injective
    {root left right : Location}
    (leftBelow : root <+: left)
    (rightBelow : root <+: right)
    (leftNamed : ∀ name ∈ left, IsName name)
    (rightNamed : ∀ name ∈ right, IsName name)
    (same : left.below root = right.below root) :
    left = right := by
  obtain ⟨more, rfl⟩ := leftBelow
  obtain ⟨other, rfl⟩ := rightBelow
  rw [below_append, below_append] at same
  rw [joined_injective
    (fun name member => leftNamed name (List.mem_append_right _ member))
    (fun name member => rightNamed name (List.mem_append_right _ member)) same]

end Names

end Location

namespace Node

def isLink : Node → Bool
  | link _ => true
  | directory | file _ => false

/-- The number of bytes of a file. -/
def size : Node → Nat
  | file bytes => bytes.length
  | directory | link _ => 0

end Node

namespace Disk

/-- The bytes of a file are fewer. -/
def maxFileSize : Nat := 0x7fffffffffffffff

/-- A file tree without links, in which every node lies in a directory. -/
structure Plain (disk : Disk) : Prop where
  unlinked : ∀ entry ∈ disk.nodes, entry.2.isLink = false
  sized : ∀ entry ∈ disk.nodes, entry.2.size < maxFileSize
  proper : ∀ entry ∈ disk.nodes, entry.1 ≠ [] ∧ entry.1.IsProper
  rooted : ∀ entry ∈ disk.nodes, disk.isDirectory entry.1.dropLast = true

/-- The bytes of the file at a location. -/
def file? (disk : Disk) (location : Location) : Option (List UInt8) :=
  match disk.node? location with
  | some (.file bytes) => some bytes
  | _ => none

variable {disk : Disk}

theorem mem_of_node?
    {location : Location} {node : Node}
    (present : location ≠ [])
    (found : disk.node? location = some node) :
    (location, node) ∈ disk.nodes := by
  rw [node?, if_neg (by simpa using present)] at found
  obtain ⟨front, back, shape, _⟩ := List.lookup_eq_some_iff.mp found
  rw [shape]
  simp

theorem node?_isSome_of_mem
    {entry : Location × Node}
    (member : entry ∈ disk.nodes) :
    (disk.node? entry.1).isSome = true := by
  unfold node?
  split
  next => rfl
  next =>
    cases found : disk.nodes.lookup entry.1 with
    | some node => rfl
    | none =>
        have differs := List.lookup_eq_none_iff.mp found entry member
        simp at differs

theorem Plain.proper_of_node?
    (plain : disk.Plain)
    {location : Location}
    (present : location ≠ [])
    (found : (disk.node? location).isSome = true) :
    location.IsProper := by
  obtain ⟨node, found⟩ := Option.isSome_iff_exists.mp found
  exact (plain.proper _ (mem_of_node? present found)).2

theorem Plain.node?_ne_link
    (plain : disk.Plain)
    (location : Location) (target : String) :
    disk.node? location ≠ some (.link target) := by
  intro found
  by_cases top : location = []
  · rw [top] at found
    cases found
  · have unlinked := plain.unlinked _ (mem_of_node? top found)
    cases unlinked

/-- Only directories have nodes below them. -/
theorem Plain.isDirectory_of_append
    (plain : disk.Plain)
    {location more : Location}
    (present : more ≠ [])
    (found : (disk.node? (location ++ more)).isSome = true) :
    disk.isDirectory location = true := by
  induction more using List.reverseRecOn with
  | nil => exact absurd rfl present
  | append_singleton more name ih =>
      rw [← List.append_assoc] at found
      obtain ⟨node, found⟩ := Option.isSome_iff_exists.mp found
      have parent := plain.rooted _ (mem_of_node? (by simp) found)
      rw [List.dropLast_concat] at parent
      by_cases last : more = []
      · rw [last, List.append_nil] at parent
        exact parent
      · apply ih last
        rw [beq_iff_eq.mp parent]
        rfl

theorem entry_eq
    {directory : Location} {name : String}
    (parent : disk.isDirectory directory = true)
    (short : name.utf8ByteSize ≤ maxNameSize) :
    disk.entry directory name =
      match disk.node? (directory ++ [name]) with
      | none => .error .missing
      | some node => .ok node := by
  rw [entry, beq_iff_eq.mp parent]
  exact if_neg (Nat.not_lt.mpr short)

/-- In a plain file tree names lead to the location that they name, if there is
a node. -/
theorem Plain.locateFrom_eq
    (plain : disk.Plain)
    (budget : Nat) (location : Location)
    {names : List String}
    (directory : disk.isDirectory location = true)
    (named : ∀ name ∈ names, Location.IsName name) :
    ((disk.node? (location ++ names)).isSome = true ∧
      disk.locateFrom budget location names = .ok (location ++ names)) ∨
    (disk.node? (location ++ names) = none ∧
      ∃ error, disk.locateFrom budget location names = .error error ∧
      error ≠ .nameTooLong) := by
  induction names generalizing location with
  | nil =>
      rw [List.append_nil]
      refine .inl ⟨?_, by rw [locateFrom]⟩
      rw [beq_iff_eq.mp directory]
      rfl
  | cons name rest ih =>
      obtain ⟨notEmpty, notDot, notDots, _, _, short⟩ :=
        named name List.mem_cons_self
      have namedRest : ∀ other ∈ rest, Location.IsName other :=
        fun other member => named other (List.mem_cons_of_mem _ member)
      have shape : location ++ name :: rest = (location ++ [name]) ++ rest := by
        simp
      rw [locateFrom, directory, entry_eq directory short]
      simp only [Bool.not_true, Bool.false_eq_true, if_false, Bool.or_self,
        beq_eq_false_iff_ne.mpr notEmpty, beq_eq_false_iff_ne.mpr notDot,
        beq_eq_false_iff_ne.mpr notDots]
      rw [shape]
      -- What lies behind a node that is no directory is not there.
      have closed (other : disk.isDirectory (location ++ [name]) = false)
          (more : rest ≠ []) :
          disk.node? (location ++ [name] ++ rest) = none := by
        by_contra found
        have parent :=
          plain.isDirectory_of_append more (Option.isSome_iff_ne_none.mpr found)
        rw [other] at parent
        cases parent
      cases found : disk.node? (location ++ [name]) with
      | none =>
          refine .inr ⟨?_, .missing, rfl, by simp⟩
          by_cases more : rest = []
          · rw [more, List.append_nil]
            exact found
          · exact closed (by rw [isDirectory, found]; rfl) more
      | some node =>
          cases node with
          | link target => exact absurd found (plain.node?_ne_link _ target)
          | directory => exact ih _ (beq_iff_eq.mpr found) namedRest
          | file bytes =>
              cases rest with
              | nil =>
                  rw [List.append_nil]
                  refine .inl ⟨by rw [found]; rfl, ?_⟩
                  simp only
                  rw [locateFrom]
              | cons next rest =>
                  have other :
                      disk.isDirectory (location ++ [name]) = false := by
                    rw [isDirectory, found]
                    rfl
                  refine .inr ⟨closed other (by simp), .notDirectory,
                    ?_, by simp⟩
                  simp only
                  rw [locateFrom, other]
                  simp

theorem not_mem_spelled
    {location : Location}
    (named : ∀ name ∈ location, Location.IsName name) :
    '\x00' ∉ location.spelled.toList := by
  rw [Location.spelled, String.toList_append, String.toList_intercalate,
    List.mem_append]
  rintro (slash | inside)
  · revert slash
    decide
  · rcases Text.mem_joinWith inside with slash | ⟨text, member, held⟩
    · revert slash
      decide
    · obtain ⟨name, listed, rfl⟩ := List.mem_map.mp member
      exact (named name listed).2.2.2.2.1 held

/-- The path from the top leads to its location. -/
theorem locate_spelled
    {location : Location}
    (present : location ≠ [])
    (proper : location.IsProper) :
    disk.locate [] location.spelled = disk.locateFrom maxLinks [] location := by
  have null : location.spelled.toList.contains '\x00' = false := by
    simpa using not_mem_spelled proper.named
  have some : location.spelled.isEmpty = false := by
    simp [Location.spelled]
  have top : disk.isDirectory [] = true := rfl
  have start : Location.start [] location.spelled = [] := by
    simp [Location.start]
  rw [locate, null, some, start, Location.names_spelled present proper.named]
  simp only [Bool.false_eq_true, if_false, Nat.not_lt.mpr proper.short]
  rw [locateFrom, top]
  rfl

theorem Plain.read_cases
    (plain : disk.Plain)
    {location : Location}
    (present : location ≠ [])
    (proper : location.IsProper) :
    (∃ bytes, disk.file? location = some bytes ∧ disk.read [] location.spelled =
      .ok bytes) ∨
    (disk.file? location = none ∧ ∃ error, disk.read [] location.spelled =
      .error error) := by
  rw [file?, read, locate_spelled present proper]
  rcases plain.locateFrom_eq maxLinks [] rfl proper.named with
    ⟨found, reached⟩ | ⟨missing, error, stopped, _⟩
  · rw [List.nil_append] at found reached
    obtain ⟨node, found⟩ := Option.isSome_iff_exists.mp found
    rw [reached]
    cases node with
    | directory =>
        exact .inr ⟨by rw [found], .isDirectory,
          by simp [bind, Except.bind, found]⟩
    | link target => exact absurd found (plain.node?_ne_link location target)
    | file bytes =>
        exact .inl ⟨bytes, by rw [found],
          by simp [bind, Except.bind, found]; rfl⟩
  · rw [List.nil_append] at missing
    exact .inr ⟨by rw [missing], error, by rw [stopped]; rfl⟩

theorem Plain.unlinkFrom_eq
    (plain : disk.Plain)
    (budget : Nat) (pending : List Location) (location : Location)
    (names : List String) :
    disk.unlinkFrom budget pending location names =
      (location.normalize names, true) := by
  fun_induction disk.unlinkFrom budget pending location names with
  | case1 budget pending location => rfl
  | case2 budget pending location name rest special ih => exact ih
  | case7 budget pending location name rest ordinary next other ih =>
      have forward : location.step name = next := by
        simp only [Bool.or_eq_true, beq_iff_eq, not_or] at ordinary
        simp [Location.step, ordinary, next]
      rw [ih, ← forward]
      rfl
  | _ => exact absurd ‹_› (plain.node?_ne_link _ _)

theorem entry_cases (disk : Disk) (directory : Location) (name : String) :
    (∃ node,
      disk.entry directory name = .ok node ∧ disk.node? (directory ++ [name]) =
        some node) ∨
    (∃ error, disk.entry directory name = .error error ∧
      error ≠ .tooManyLinks) := by
  unfold entry
  split
  next => exact .inr ⟨_, rfl, nofun⟩
  next =>
    split
    next => exact .inr ⟨_, rfl, nofun⟩
    next =>
      split
      next => exact .inr ⟨_, rfl, nofun⟩
      next node found => exact .inl ⟨node, rfl, found⟩
  next => exact .inr ⟨_, rfl, nofun⟩

theorem Plain.locateFrom_ne_tooManyLinks
    (plain : disk.Plain)
    (budget : Nat) (location : Location) (names : List String) :
    disk.locateFrom budget location names ≠ .error .tooManyLinks := by
  induction names generalizing location with
  | nil =>
      rw [locateFrom]
      intro stopped
      cases stopped
  | cons name rest ih =>
      rw [locateFrom]
      split
      next =>
        intro stopped
        cases stopped
      next =>
        split
        next => exact ih _
        next =>
          rcases disk.entry_cases location name with
            ⟨node, held, found⟩ | ⟨error, held, other⟩
          · rw [held]
            cases node with
            | directory => exact ih _
            | file bytes => exact ih _
            | link target => exact absurd found (plain.node?_ne_link _ target)
          · rw [held]
            intro stopped
            exact other (Except.error.inj stopped)

/-- A path has the location that its names lead to. -/
theorem Plain.resolve_eq
    (plain : disk.Plain)
    (current : Location)
    {path : String}
    (null : '\x00' ∉ path.toList) :
    disk.resolve current path = .ok (Location.ofPath current path) := by
  have free : path.toList.contains '\x00' = false := by simpa using null
  rw [resolve, free, if_neg Bool.false_ne_true]
  simp only [plain.unlinkFrom_eq]
  split
  next stopped => exact absurd stopped (plain.locateFrom_ne_tooManyLinks _ _ _)
  next => rfl

end Disk

namespace Project

variable {disk : Disk}

theorem isFile_eq
    (plain : disk.Plain)
    {location : Location}
    (present : location ≠ [])
    (proper : location.IsProper) :
    isFile disk location = .ok (disk.file? location).isSome := by
  rw [isFile, Disk.locate_spelled present proper, Disk.file?]
  rcases plain.locateFrom_eq Disk.maxLinks [] rfl proper.named with
    ⟨found, reached⟩ | ⟨missing, error, stopped, other⟩
  · rw [List.nil_append] at found reached
    obtain ⟨node, found⟩ := Option.isSome_iff_exists.mp found
    simp only [reached, Disk.isDirectory, found]
    cases node with
    | directory => rfl
    | link target => exact absurd found (plain.node?_ne_link location target)
    | file bytes => rfl
  · rw [List.nil_append] at missing
    rw [stopped, missing]
    cases error with
    | nameTooLong => exact absurd rfl other
    | _ => rfl

theorem leadsToDirectory_eq
    (plain : disk.Plain)
    {location : Location}
    (named : ∀ name ∈ location, Location.IsName name) :
    leadsToDirectory disk location = disk.isDirectory location := by
  rw [leadsToDirectory]
  rcases plain.locateFrom_eq Disk.maxLinks [] rfl named with
    ⟨_, reached⟩ | ⟨missing, error, stopped, _⟩
  · rw [List.nil_append] at reached
    rw [reached]
  · rw [List.nil_append] at missing
    rw [stopped, Disk.isDirectory, missing]
    rfl

theorem mem_children_iff (disk : Disk) (location : Location) (name : String) :
    name ∈ disk.children location ↔
      (disk.node? (location ++ [name])).isSome = true := by
  rw [Disk.children, List.mem_mergeSort, List.mem_filterMap]
  constructor
  · rintro ⟨⟨other, node⟩, member, last⟩
    dsimp only at last
    split at last
    next parent =>
      have whole : other = location ++ [name] := by
        rw [← beq_iff_eq.mp parent]
        exact (List.dropLast_append_getLast? name last).symm
      rw [← whole]
      exact Disk.node?_isSome_of_mem member
    next => cases last
  · intro found
    obtain ⟨node, found⟩ := Option.isSome_iff_exists.mp found
    exact ⟨_, Disk.mem_of_node? (by simp) found, by simp⟩

theorem isSome_node?_of_file?
    {location : Location}
    (found : (disk.file? location).isSome = true) :
    (disk.node? location).isSome = true := by
  unfold Disk.file? at found
  split at found
  next bytes same => rw [same]; rfl
  next => cases found

/-- A node is a file unless it is a directory. -/
theorem isSome_file?_iff
    (plain : disk.Plain)
    (location : Location) :
    (disk.file? location).isSome = true ↔
      (disk.node? location).isSome = true ∧
        disk.isDirectory location = false := by
  rw [Disk.file?, Disk.isDirectory]
  cases found : disk.node? location with
  | none => simp
  | some node =>
      cases node with
      | directory => simp
      | file bytes => simp
      | link target => exact absurd found (plain.node?_ne_link _ target)

theorem mem_sourcesFrom_iff
    (plain : disk.Plain)
    (excludes : List String) (fuel : Nat) (directory location : Location) :
    location ∈ sourcesFrom disk excludes fuel directory ↔
      ∃ way name,
        location = directory ++ (way ++ [name]) ∧
          way.length < fuel ∧
          (∀ part ∈ way, part ∉ excludes) ∧
          isSource name = true ∧
          (disk.file? location).isSome = true := by
  induction fuel generalizing directory location with
  | zero => simp [sourcesFrom]
  | succ fuel ih =>
      have named {name : String}
          (found : (disk.node? (directory ++ [name])).isSome = true) :
          leadsToDirectory disk (directory ++ [name]) =
            disk.isDirectory (directory ++ [name]) :=
        leadsToDirectory_eq plain (plain.proper_of_node? (by simp) found).named
      simp only [sourcesFrom, List.mem_append, List.mem_map, List.mem_flatMap,
        List.mem_filter, Bool.and_eq_true, Bool.not_eq_true', mem_children_iff]
      constructor
      · rintro (⟨name, ⟨found, source, other⟩, rfl⟩ |
          ⟨part, ⟨_, kept, inside⟩, member⟩)
        · rw [named found] at other
          exact ⟨[], name, rfl, Nat.zero_lt_succ fuel, nofun, source,
            (isSome_file?_iff plain _).mpr ⟨found, other⟩⟩
        · obtain ⟨way, name, rfl, short, open?, source, file⟩ :=
            (ih _ _).mp member
          refine ⟨part :: way, name, by simp, Nat.succ_lt_succ short, ?_,
            source, file⟩
          intro other listed
          rcases List.mem_cons.mp listed with rfl | later
          · simpa using kept
          · exact open? other later
      · rintro ⟨way, name, rfl, short, open?, source, file⟩
        cases way with
        | nil =>
            obtain ⟨found, other⟩ := (isSome_file?_iff plain _).mp file
            rw [List.nil_append] at found other
            exact .inl ⟨name, ⟨found, source, by rw [named found, other]⟩, rfl⟩
        | cons part way =>
            have shape : directory ++ (part :: way ++ [name]) =
                directory ++ [part] ++ (way ++ [name]) := by simp
            rw [shape] at file ⊢
            have inside : disk.isDirectory (directory ++ [part]) = true :=
              plain.isDirectory_of_append (by simp) (isSome_node?_of_file? file)
            have found : (disk.node? (directory ++ [part])).isSome = true := by
              rw [beq_iff_eq.mp inside]
              rfl
            have kept := open? part List.mem_cons_self
            refine .inr ⟨part, ⟨found, by simpa using kept, inside⟩,
              (ih _ _).mpr ?_⟩
            refine ⟨way, name, rfl, Nat.lt_of_succ_lt_succ short, ?_,
              source, file⟩
            exact fun other listed =>
              open? other (List.mem_cons_of_mem _ listed)

theorem length_le_depth
    {entry : Location × Node}
    (member : entry ∈ disk.nodes) :
    entry.1.length ≤ depth disk := by
  have general (nodes : List (Location × Node)) (longest : Nat) :
      longest ≤
        nodes.foldl (fun longest entry => max longest entry.1.length) longest ∧
        ∀ entry ∈ nodes,
          entry.1.length ≤
            nodes.foldl
              (fun longest entry => max longest entry.1.length) longest := by
    induction nodes generalizing longest with
    | nil => exact ⟨Nat.le_refl _, nofun⟩
    | cons first rest ih =>
        obtain ⟨grows, bounds⟩ := ih (max longest first.1.length)
        rw [List.foldl_cons]
        refine ⟨by omega, ?_⟩
        intro entry member
        rcases List.mem_cons.mp member with rfl | later
        · omega
        · exact bounds entry later
  exact (general disk.nodes 0).2 entry member

/-- Whether a directory on the way from a root to a location is left out. -/
def IsHidden (excludes : List String) (root location : Location) : Prop :=
  ∃ name ∈ (location.drop root.length).dropLast, name ∈ excludes

instance (excludes : List String) (root location : Location) :
    Decidable (IsHidden excludes root location) :=
  inferInstanceAs
    (Decidable (∃ name ∈ (location.drop root.length).dropLast, name ∈ excludes))

/-- The sources of a project are the source files below its root that are not
hidden. -/
theorem mem_sources_iff
    (plain : disk.Plain)
    (excludes : List String) (root location : Location) :
    location ∈ sources disk excludes root ↔
      root <+: location ∧
        location ≠ root ∧
        ¬ IsHidden excludes root location ∧
        location.getLast?.any isSource = true ∧
        (disk.file? location).isSome = true := by
  rw [sources, mem_sourcesFrom_iff plain]
  constructor
  · rintro ⟨way, name, rfl, _, open?, source, file⟩
    refine ⟨⟨_, rfl⟩, by simp, ?_, ?_, file⟩
    · rintro ⟨part, member, excluded⟩
      rw [List.drop_left, List.dropLast_concat] at member
      exact open? part member excluded
    · rw [← List.append_assoc, List.getLast?_concat]
      exact source
  · rintro ⟨⟨more, rfl⟩, below, shown, source, file⟩
    have present : more ≠ [] := by
      rintro rfl
      exact below (List.append_nil root)
    obtain ⟨way, name, rfl⟩ : ∃ way name, more = way ++ [name] :=
      ⟨more.dropLast, more.getLast present,
        (List.dropLast_append_getLast present).symm⟩
    obtain ⟨node, found⟩ :=
      Option.isSome_iff_exists.mp (isSome_node?_of_file? file)
    have bound := length_le_depth (Disk.mem_of_node? (by simp) found)
    refine ⟨way, name, rfl, ?_, ?_, ?_, file⟩
    · simp only [List.length_append, List.length_singleton] at bound
      omega
    · intro part member excluded
      apply shown
      refine ⟨part, ?_, excluded⟩
      rw [List.drop_left, List.dropLast_concat]
      exact member
    · rw [← List.append_assoc, List.getLast?_concat] at source
      exact source

end Project

end MacroTrace
