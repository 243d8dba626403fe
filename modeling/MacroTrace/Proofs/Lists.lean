import Mathlib.Data.List.Basic
import Mathlib.Data.List.Lex
import Mathlib.Data.List.Nodup
import Mathlib.Data.List.TakeWhile
import Mathlib.Order.Lattice

/-!
# Lists

Facts about lists of any kind that the readings of a text rest on: where a
member of two parts stands, how far a class of members reaches, what a cut at a
separator leaves, in which order members come first, what a traversal that may
fail gives, and how two lists compare.
-/

namespace List

variable {α β ε : Type}

/-- A member of two parts belongs to the first or to the second. -/
theorem append_eq_append_cons
    {left right front after : List α} {c : α}
    (shape : left ++ right = front ++ c :: after) :
    (∃ rest, left = front ++ c :: rest ∧ after = rest ++ right) ∨
      ∃ inner, front = left ++ inner ∧ right = inner ++ c :: after := by
  rcases append_eq_append_iff.mp shape with
    ⟨inner, before, behind⟩ | ⟨rest, text, behind⟩
  · exact .inr ⟨inner, before, behind⟩
  · cases rest with
    | nil => exact .inr ⟨[], by simp [text], behind.symm⟩
    | cons d rest =>
        rw [cons_append] at behind
        obtain ⟨rfl, later⟩ := cons.inj behind
        exact .inl ⟨rest, text, later⟩

theorem exists_append_of_getElem?
    {list : List α} {index : Nat} {c : α}
    (found : list[index]? = some c) :
    ∃ front after, list = front ++ c :: after ∧ front.length = index := by
  obtain ⟨inside, here⟩ := getElem?_eq_some_iff.mp found
  refine ⟨list.take index, list.drop (index + 1), ?_,
    length_take_of_le (Nat.le_of_lt inside)⟩
  rw [← here, ← drop_eq_getElem_cons inside, take_append_drop]

theorem drop_eq_cons_of_getElem?
    {list : List α} {index : Nat} {c : α}
    (present : list[index]? = some c) :
    list.drop index = c :: list.drop (index + 1) := by
  obtain ⟨inside, here⟩ := getElem?_eq_some_iff.mp present
  rw [drop_eq_getElem_cons inside, here]

theorem drop_add_length
    {list part rest : List α} {start : Nat}
    (behind : list.drop start = part ++ rest) :
    list.drop (start + part.length) = rest := by
  rw [← drop_drop, behind, drop_left]

theorem not_mem_of_forall
    {keep : α → Bool} {list : List α}
    (kept : ∀ c ∈ list, keep c = true)
    {d : α}
    (apart : keep d = false) :
    d ∉ list := by
  intro member
  rw [kept d member] at apart
  cases apart

theorem takeWhile_append_of_head?
    {keep : α → Bool} {right : List α}
    (stops : ∀ c, right.head? = some c → keep c = false)
    (left : List α) :
    (left ++ right).takeWhile keep = left.takeWhile keep := by
  induction left with
  | nil =>
      cases right with
      | nil => rfl
      | cons c right => simp [stops c rfl]
  | cons c left ih => rw [cons_append, takeWhile_cons, takeWhile_cons, ih]

theorem dropWhile_append_of_head?
    {keep : α → Bool} {right : List α}
    (stops : ∀ c, right.head? = some c → keep c = false)
    (left : List α) :
    (left ++ right).dropWhile keep = left.dropWhile keep ++ right := by
  induction left with
  | nil =>
      cases right with
      | nil => rfl
      | cons c right => simp [stops c rfl]
  | cons c left ih =>
      rw [cons_append, dropWhile_cons, dropWhile_cons, ih]
      split
      · rfl
      · rfl

theorem drop_takeWhile_length (keep : α → Bool) (list : List α) :
    list.drop (list.takeWhile keep).length = list.dropWhile keep := by
  calc
    list.drop (list.takeWhile keep).length =
        (list.takeWhile keep ++ list.dropWhile keep).drop
          (list.takeWhile keep).length := by
      rw [takeWhile_append_dropWhile]
    _ = list.dropWhile keep := drop_left

theorem takeWhile_append_of_not_mem
    [DecidableEq α] {stop : α} {front : List α}
    (absent : stop ∉ front)
    (rest : List α) :
    (front ++ rest).takeWhile (· ≠ stop) =
      front ++ rest.takeWhile (· ≠ stop) := by
  apply takeWhile_append_of_pos
  intro c member
  apply decide_eq_true
  rintro rfl
  exact absent member

section Equality

variable [BEq α] [LawfulBEq α]

theorem lookup_reverse_zip
    {keys : List α}
    (once : keys.Nodup)
    (values : List β) (key : α) :
    (keys.zip values).reverse.lookup key = (keys.zip values).lookup key := by
  induction keys generalizing values with
  | nil => rfl
  | cons first keys ih =>
      cases values with
      | nil => rfl
      | cons value values =>
          obtain ⟨fresh, once⟩ := nodup_cons.mp once
          rw [zip_cons_cons, reverse_cons, lookup_append, ih once, lookup_cons,
            lookup_cons]
          by_cases same : key = first
          · subst same
            have absent : (keys.zip values).lookup key = none := by
              rw [lookup_eq_none_iff]
              intro entry member
              rw [bne_iff_ne]
              intro same
              exact fresh (same ▸ (of_mem_zip member).1)
            simp [absent]
          · rw [beq_eq_false_iff_ne.mpr same]
            exact Option.or_none

theorem idxOf_filter_lt_iff
    (keep : α → Bool) (list : List α)
    {one other : α}
    (keepsOne : keep one = true)
    (keepsOther : keep other = true) :
    (list.filter keep).idxOf one < (list.filter keep).idxOf other ↔
      list.idxOf one < list.idxOf other := by
  induction list with
  | nil => simp
  | cons a list ih =>
      by_cases kept : keep a = true
      · rw [filter_cons_of_pos kept]
        simp only [idxOf_cons]
        by_cases isOther : a = other
        · simp [isOther]
        · by_cases isOne : a = one
          · simp [beq_iff_eq.mpr isOne, beq_false_of_ne isOther]
          · simpa [beq_false_of_ne isOne, beq_false_of_ne isOther] using ih
      · have notOne : a ≠ one := fun same => kept (same ▸ keepsOne)
        have notOther : a ≠ other := fun same => kept (same ▸ keepsOther)
        rw [filter_cons_of_neg kept, ih]
        simp [notOne, notOther]

/-- Without its repetitions a list is in the order of first occurrences. -/
theorem pairwise_idxOf_eraseDups (list : List α) :
    list.eraseDups.Pairwise fun one other =>
      list.idxOf one < list.idxOf other := by
  match list with
  | [] => exact .nil
  | a :: list =>
      have kept {value : α}
          (member : value ∈ (list.filter fun b => !b == a).eraseDups) :
          (!value == a) = true :=
        (mem_filter.mp (mem_eraseDups.mp member)).2
      have index {value : α} (kept : (!value == a) = true) :
          (a :: list).idxOf value = list.idxOf value + 1 := by
        have different : value ≠ a := by simpa using kept
        simp [Ne.symm different]
      rw [eraseDups_cons]
      refine pairwise_cons.mpr ⟨?_, ?_⟩
      · intro value member
        rw [index (kept member)]
        simp
      · have later := pairwise_idxOf_eraseDups (list.filter fun b => !b == a)
        refine later.imp_of_mem ?_
        intro one other oneMember otherMember less
        have keptOne := kept oneMember
        have keptOther := kept otherMember
        rw [index keptOne, index keptOther]
        rw [idxOf_filter_lt_iff (fun b => !b == a) list keptOne keptOther]
          at less
        exact Nat.succ_lt_succ less
termination_by list.length
decreasing_by
  exact Nat.lt_succ_of_le (length_filter_le _ _)

theorem not_mem_of_mem_splitOn
    {separator : α} {list part : List α}
    (member : part ∈ splitOn separator list) :
    separator ∉ part := by
  induction list generalizing part with
  | nil =>
      rw [splitOn_nil, mem_singleton] at member
      rw [member]
      exact not_mem_nil
  | cons c rest ih =>
      rw [splitOn_cons_eq_if_modifyHead] at member
      split at member
      next =>
        rcases mem_cons.mp member with rfl | later
        · exact not_mem_nil
        · exact ih later
      next other =>
        cases parts : splitOn separator rest with
        | nil => exact absurd parts (splitOn_ne_nil _ _)
        | cons first others =>
            rw [parts] at member
            rw [parts] at ih
            rcases mem_cons.mp member with rfl | later
            · rw [mem_cons, not_or]
              exact ⟨fun same => other (beq_iff_eq.mpr same.symm),
                ih mem_cons_self⟩
            · exact ih (mem_cons_of_mem _ later)

theorem splitOn_append_of_not_mem
    {separator : α} {front : List α}
    (absent : separator ∉ front)
    (list : List α) :
    splitOn separator (front ++ list) =
      (splitOn separator list).modifyHead (front ++ ·) := by
  induction front with
  | nil => exact (congrFun modifyHead_id _).symm
  | cons c front ih =>
      rw [mem_cons, not_or] at absent
      rw [cons_append, splitOn_cons_eq_if_modifyHead,
        if_neg fun same => absent.1 (beq_iff_eq.mp same).symm, ih absent.2,
        modifyHead_modifyHead]
      rfl

/-- A part behind the first follows a separator, and one follows it. -/
theorem exists_of_mem_tail_splitOn
    {separator : α} {list part : List α}
    (member : part ∈ (splitOn separator list).tail) :
    ∃ front back,
      list = front ++ separator :: (part ++ back) ∧
        ∀ c, back.head? = some c → c = separator := by
  rw [← @intercalate_splitOn α list _ _ separator]
  cases parts : splitOn separator list with
  | nil => exact absurd parts (splitOn_ne_nil _ _)
  | cons first others =>
      rw [parts, tail_cons] at member
      clear parts
      induction others generalizing first with
      | nil => cases member
      | cons second others ih =>
          rw [intercalate_cons_cons]
          rcases mem_cons.mp member with rfl | later
          · refine ⟨first, ?_⟩
            cases others with
            | nil =>
                refine ⟨[], by simp, ?_⟩
                intro c none
                cases none
            | cons third others =>
                rw [intercalate_cons_cons]
                refine ⟨separator :: [separator].intercalate (third :: others),
                  by simp, ?_⟩
                rintro c ⟨⟩
                rfl
          · obtain ⟨front, back, shape, ends⟩ := ih second later
            refine ⟨first ++ separator :: front, back, ?_, ends⟩
            rw [shape]
            simp

end Equality

/-- A traversal has the results of all its members, or fails as one of them
does. -/
theorem mapM_cases (f : α → Except ε β) (list : List α) :
    (∃ results,
      list.mapM f = .ok results ∧
        ∀ result, result ∈ results ↔ ∃ member ∈ list, f member = .ok result) ∨
    (∃ error,
      list.mapM f = .error error ∧ ∃ member ∈ list, f member =
        .error error) := by
  induction list with
  | nil => exact .inl ⟨[], rfl, by simp⟩
  | cons first list ih =>
      rw [mapM_cons]
      cases here : f first with
      | error error => exact .inr ⟨error, rfl, first, mem_cons_self, here⟩
      | ok value =>
          rcases ih with
            ⟨results, traversed, each⟩ |
              ⟨error, traversed, member, listed, failed⟩
          · rw [traversed]
            refine .inl ⟨value :: results, rfl, ?_⟩
            intro result
            constructor
            · intro found
              rcases mem_cons.mp found with rfl | later
              · exact ⟨first, mem_cons_self, here⟩
              · obtain ⟨member, listed, same⟩ := (each result).mp later
                exact ⟨member, mem_cons_of_mem _ listed, same⟩
            · rintro ⟨member, listed, same⟩
              rcases mem_cons.mp listed with rfl | later
              · rw [here] at same
                cases same
                exact mem_cons_self
              · exact mem_cons_of_mem _
                  ((each result).mpr ⟨member, later, same⟩)
          · rw [traversed]
            exact .inr ⟨error, rfl, member, mem_cons_of_mem _ listed, failed⟩

/-- Lists are compared by the first members that differ. -/
theorem cons_le_cons_iff_lt_or
    [LinearOrder α] {a b : α} {left right : List α} :
    a :: left ≤ b :: right ↔ a < b ∨ a = b ∧ left ≤ right := by
  rw [le_iff_lt_or_eq, cons_lt_cons_iff, cons.injEq, or_assoc, ← and_or_left,
    ← le_iff_lt_or_eq]

end List
