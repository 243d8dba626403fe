import MacroTrace.Proofs.Frame
import MacroTrace.Proofs.NormalForm

/-!
# Argument lists account for their text

An argument list ends at the parenthesis that closes the one it opens with, and
its arguments tile the text in between, also where a line break cuts a literal
short: each stands between blanks, one comma lies between two of them, and no
comma in an argument stands outside its literals and parentheses.  In the other
direction, arguments of this kind are read back from a call that spells them
out.
-/

namespace MacroTrace

open Literal (Scan)

namespace Text

theorem isAllBlank_iff
    {text : Text} :
    isAllBlank text = true ↔ ∀ c ∈ text, isBlank c = true :=
  List.all_eq_true

/-- A text between its blanks. -/
theorem exists_trim_append (text : Text) :
    ∃ trail, isAllBlank trail = true ∧
      text = text.takeWhile isBlank ++ (trim text ++ trail) := by
  obtain ⟨trail, blank, shape⟩ := exists_trimRight_append (trimLeft text)
  refine ⟨trail, isAllBlank_iff.mpr blank, ?_⟩
  rw [trim, ← shape, trimLeft_append]

theorem trim_eq_nil_iff
    {text : Text} :
    trim text = [] ↔ isAllBlank text = true := by
  constructor
  · intro empty
    obtain ⟨trail, blank, shape⟩ := exists_trim_append text
    rw [empty, List.nil_append] at shape
    rw [shape, isAllBlank, List.all_append, Bool.and_eq_true]
    refine ⟨isAllBlank_iff.mpr ?_, blank⟩
    intro c member
    exact List.mem_takeWhile_imp member
  · intro blank
    have left : trimLeft text = [] :=
      List.dropWhile_eq_nil_iff.mpr (isAllBlank_iff.mp blank)
    rw [trim, left]
    rfl

theorem slice_of_drop
    {text part rest : Text} {start : Nat}
    (behind : text.drop start = part ++ rest) :
    slice text ⟨start, start + part.length⟩ = part := by
  rw [slice, behind, Nat.add_sub_cancel_left, List.take_left]

theorem slice_append_slice
    {text : Text} {start middle stop : Nat}
    (first : start ≤ middle)
    (second : middle ≤ stop) :
    slice text ⟨start, middle⟩ ++ slice text ⟨middle, stop⟩ =
      slice text ⟨start, stop⟩ := by
  have length : stop - start = (middle - start) + (stop - middle) := by omega
  rw [slice, slice, slice, length, List.take_add, List.drop_drop,
    Nat.add_sub_cancel' first]

end Text

namespace Argument

/-- An argument stands between the blanks of the text that it was trimmed
from. -/
theorem slices_ofRaw
    {text raw rest : Text} {start : Nat}
    (behind : text.drop start = raw ++ rest) :
    Text.isAllBlank (Text.slice text ⟨start, (ofRaw raw start).span.start⟩) =
      true ∧
      Text.slice text (ofRaw raw start).span = (ofRaw raw start).text ∧
      Text.isAllBlank
          (Text.slice text ⟨(ofRaw raw start).span.stop, start + raw.length⟩) =
        true := by
  obtain ⟨trail, blank, shape⟩ := Text.exists_trim_append raw
  have lead : Text.isAllBlank (raw.takeWhile Text.isBlank) = true :=
    Text.isAllBlank_iff.mpr fun c member => List.mem_takeWhile_imp member
  have first : text.drop start =
      raw.takeWhile Text.isBlank ++ (Text.trim raw ++ (trail ++ rest)) := by
    rw [behind]
    conv => lhs; rw [shape]
    simp only [List.append_assoc]
  have second := List.drop_add_length first
  have third := List.drop_add_length second
  have whole := congrArg List.length shape
  simp only [List.length_append] at whole
  have ends : start + raw.length =
      start + (raw.takeWhile Text.isBlank).length + (Text.trim raw).length +
        trail.length := by
    omega
  refine ⟨?_, Text.slice_of_drop second, ?_⟩
  · exact (congrArg Text.isAllBlank (Text.slice_of_drop first)).trans lead
  · rw [ends]
    exact (congrArg Text.isAllBlank (Text.slice_of_drop third)).trans blank

end Argument

namespace ArgumentList

theorem closingFrom_of_stays
    {scan : Scan} {depth : Nat} {c : Char}
    (stays : Stays scan depth c)
    (offset : Nat) (rest : Text) :
    Nesting.closingFrom scan (depth + 1) offset (c :: rest) =
      Nesting.closingFrom (scan.step c) (Nesting.next scan depth c + 1)
        (offset + 1) rest := by
  rcases stays.cases with
    ⟨covered, same⟩ | ⟨uncovered, rfl, deeper⟩ | ⟨uncovered, rfl, lower⟩ |
      ⟨uncovered, notOpening, notClosing, _, same⟩
  · simp [Nesting.closingFrom, covered, same]
  · simp [Nesting.closingFrom, uncovered, deeper]
  · generalize Nesting.next scan depth ')' = next at lower ⊢
    subst lower
    have inner : (next : Int) + 1 + 1 ≠ 1 := by omega
    simp [Nesting.closingFrom, uncovered, inner]
  · simp [Nesting.closingFrom, uncovered, notOpening, notClosing, same]

/-- Reading a list and looking for the closing parenthesis end at the same
place. -/
theorem closingFrom_eq_map_readFrom
    (scan : Scan) (depth offset : Nat) (raw : Text) (found : List Argument)
    (text : Text) :
    Nesting.closingFrom scan (depth + 1) offset text =
      (readFrom scan depth offset raw found text).map fun list =>
        list.stop - 1 := by
  induction text generalizing scan depth offset raw found with
  | nil => rfl
  | cons c rest ih =>
      by_cases stays : Stays scan depth c
      · rw [closingFrom_of_stays stays, readFrom_of_stays stays]
        exact ih _ _ _ _ _
      · obtain ⟨rfl, rfl, rfl | rfl⟩ := eq_of_not_stays stays
        · exact ih .code 0 _ _ _
        · rfl

theorem closingFrom_of_readFrom
    {scan : Scan} {depth offset : Nat} {raw : Text} {found : List Argument}
    {text : Text} {list : ArgumentList}
    (read : readFrom scan depth offset raw found text = some list) :
    Nesting.closingFrom scan (depth + 1) offset text =
      some (list.stop - 1) := by
  rw [closingFrom_eq_map_readFrom scan depth offset raw found, read]
  rfl

theorem at?_eq_readFrom
    {text : Text} {opening : Nat}
    (opens : text[opening]? = some '(') :
    at? text opening =
      readFrom .code 0 (opening + 1) [] [] (text.drop (opening + 1)) := by
  have behind := List.drop_eq_cons_of_getElem? opens
  unfold at?
  split
  next rest shape =>
    rw [behind] at shape
    rw [(List.cons.inj shape).2]
  next other => exact absurd behind (other _)

theorem closing?_eq_map_at?
    {text : Text} {opening : Nat}
    (opens : text[opening]? = some '(') :
    Nesting.closing? text opening = (at? text opening).map fun list =>
      list.stop - 1 := by
  have closes :=
    closingFrom_eq_map_readFrom .code 0 (opening + 1) [] []
      (text.drop (opening + 1))
  rw [at?_eq_readFrom opens, ← closes, Nesting.closing?,
    List.drop_eq_cons_of_getElem? opens]
  rfl

/-- An argument as far as it has been read: where the scan and the depth have
got to, that no parenthesis was closed too early, and that no comma stands
outside its literals and parentheses. -/
structure Draft (raw : Text) (scan : Scan) (depth : Nat) : Prop where
  reaches : Scan.code.run raw = scan
  level : Nesting.behind .code 0 raw = depth
  balance : ∀ rest,
    Nesting.balancedFrom .code 0 (raw ++ rest) =
      Nesting.balancedFrom scan depth rest
  commas : raw.CommasEnclosed

namespace Draft

theorem nil : Draft [] .code 0 :=
  ⟨rfl, rfl, fun _ => rfl, .of_not_mem List.not_mem_nil⟩

theorem concat
    {raw : Text} {scan : Scan} {depth : Nat} {c : Char}
    (draft : Draft raw scan depth)
    (stays : Stays scan depth c) :
    Draft (raw ++ [c]) (scan.step c) (Nesting.next scan depth c) := by
  constructor
  · rw [Scan.run_append, draft.reaches]
    rfl
  · rw [Nesting.behind_append, draft.reaches, draft.level]
    rfl
  · intro rest
    rw [List.append_assoc, draft.balance, List.singleton_append]
    rcases stays.cases with
      ⟨covered, same⟩ | ⟨uncovered, rfl, deeper⟩ | ⟨uncovered, rfl, lower⟩ |
        ⟨uncovered, notOpening, notClosing, _, same⟩
    · simp [Nesting.balancedFrom, covered, same]
    · simp [Nesting.balancedFrom, uncovered, deeper]
    · generalize Nesting.next scan depth ')' = next at lower ⊢
      subst lower
      simp [Nesting.balancedFrom, uncovered]
    · simp [Nesting.balancedFrom, uncovered, notOpening, notClosing, same]
  · rw [Text.CommasEnclosed.iff_forall_append]
    intro front rest shape
    rcases List.append_eq_append_cons shape with
      ⟨later, inRaw, _⟩ | ⟨inner, before, last⟩
    · exact Text.CommasEnclosed.iff_forall_append.mp draft.commas
        front later inRaw
    · obtain ⟨rfl, rfl⟩ : inner = [] ∧ c = ',' := by
        cases inner with
        | nil => exact ⟨rfl, (List.cons.inj last).1⟩
        | cons d inner => simp at last
      rw [List.append_nil] at before
      rw [before, draft.reaches, draft.level]
      rcases stays with covered | deep | ⟨impossible, _⟩
      · exact .inl covered
      · exact .inr deep
      · exact absurd rfl impossible

theorem isBalanced_trim
    {raw : Text} {scan : Scan}
    (draft : Draft raw scan 0) :
    Nesting.isBalanced (Text.trim raw) = true := by
  have balance := draft.balance []
  rw [List.append_nil] at balance
  rw [Nesting.isBalanced_trim, Nesting.isBalanced, balance]
  rfl

/-- Blanks in front of a text count for nothing. -/
theorem behind_of_inert
    {text : Text}
    (inert : ∀ c ∈ text, Place.isInert c = true) :
    Scan.code.run text = .code ∧ Nesting.behind .code 0 text = 0 := by
  have walked := Place.walk?_code_of_inert inert 0
  exact ⟨(Place.scan_of_walk? walked).symm, Invocation.behind_of_walk? walked⟩

theorem commas_trim
    {raw : Text} {scan : Scan} {depth : Nat}
    (draft : Draft raw scan depth) :
    (Text.trim raw).CommasEnclosed := by
  rw [Text.CommasEnclosed.iff_forall_append]
  intro front after inside
  obtain ⟨trail, _, shape⟩ := Text.exists_trim_append raw
  have lead : ∀ c ∈ raw.takeWhile Text.isBlank, Place.isInert c = true :=
    fun c member => Text.isInert_of_isBlank (List.mem_takeWhile_imp member)
  obtain ⟨inCode, level⟩ := behind_of_inert lead
  have whole : raw =
      (raw.takeWhile Text.isBlank ++ front) ++ ',' :: (after ++ trail) := by
    conv => lhs; rw [shape, inside]
    simp only [List.append_assoc, List.cons_append]
  have enclosed :=
    Text.CommasEnclosed.iff_forall_append.mp draft.commas _ _ whole
  rwa [Scan.run_append, Nesting.behind_append, inCode, level] at enclosed

end Draft

/-- The arguments tile the text from `start` up to the parenthesis at
`closing`. -/
inductive Tiles (text : Text) (closing : Nat) : Nat → List Argument → Prop where
  | last {start : Nat} {raw after : Text} :
      Draft raw .code 0 →
      text.drop start = raw ++ ')' :: after →
      start + raw.length = closing →
      Tiles text closing start [Argument.ofRaw raw start]
  | more {start : Nat} {raw after : Text} {arguments : List Argument} :
      Draft raw .code 0 →
      text.drop start = raw ++ ',' :: after →
      Tiles text closing (start + raw.length + 1) arguments →
      Tiles text closing start (Argument.ofRaw raw start :: arguments)

theorem Tiles.ne_nil
    {text : Text} {closing start : Nat} {arguments : List Argument}
    (tiles : Tiles text closing start arguments) :
    arguments ≠ [] := by
  cases tiles with
  | last => exact List.cons_ne_nil _ _
  | more => exact List.cons_ne_nil _ _

theorem exists_tiles
    {list : ArgumentList} {scan : Scan} {depth offset : Nat} {raw : Text}
    {found : List Argument} {rest : Text}
    (reading : Reading list scan depth offset raw found rest)
    {text : Text} {start : Nat}
    (behind : text.drop start = raw.reverse ++ rest)
    (reached : start + raw.length = offset)
    (draft : Draft raw.reverse scan depth) :
    ∃ arguments,
      Tiles text (list.stop - 1) start arguments ∧
        list.arguments =
          if found = [] ∧ arguments.map (·.text) = [[]] then []
          else found.reverse ++ arguments := by
  induction reading generalizing start with
  | stays stays _ ih =>
      apply ih
      · rw [behind, List.reverse_cons, List.append_assoc, List.singleton_append]
      · rw [List.length_cons]
        omega
      · rw [List.reverse_cons]
        exact draft.concat stays
  | @comma offset raw found rest reading ih =>
      have length : start + raw.reverse.length = offset := by
        rw [List.length_reverse, reached]
      have first : offset - raw.length = start := by omega
      have next : text.drop (offset + 1) = rest := by
        rw [← length, ← List.drop_drop, List.drop_add_length behind]
        rfl
      obtain ⟨arguments, tiles, made⟩ := ih next (Nat.add_zero _) .nil
      rw [← length] at tiles
      refine ⟨_, .more draft behind tiles, ?_⟩
      rw [made, if_neg (by simp), if_neg (by simp [tiles.ne_nil]), first]
      simp
  | @closes offset raw found rest finished =>
      have length : start + raw.reverse.length = offset := by
        rw [List.length_reverse, reached]
      have first : offset - raw.length = start := by omega
      rw [← finished]
      refine ⟨_, .last draft behind length, ?_⟩
      simp only [finish, first]
      by_cases single : found = [] ∧
        (Argument.ofRaw raw.reverse start).text = []
      · simp [single]
      · simp [single]

namespace Tiles

variable {text : Text} {closing start : Nat} {arguments : List Argument}

theorem start_le
    (tiles : Tiles text closing start arguments) :
    start ≤ closing := by
  induction tiles with
  | last _ _ reached => omega
  | more _ _ _ ih => omega

theorem bounds
    (tiles : Tiles text closing start arguments) :
    ∀ argument ∈ arguments, start ≤ argument.span.start ∧
      argument.span.start ≤ argument.span.stop ∧
      argument.span.stop ≤ closing := by
  induction tiles with
  | @last start raw after _ _ reached =>
      intro argument member
      have within := Argument.span_ofRaw_le raw start
      rw [List.mem_singleton.mp member]
      omega
  | @more start raw after arguments _ _ tiles ih =>
      intro argument member
      rcases List.mem_cons.mp member with rfl | later
      · have within := Argument.span_ofRaw_le raw start
        have onward := tiles.start_le
        omega
      · have within := ih argument later
        omega

theorem ordered
    (tiles : Tiles text closing start arguments) :
    arguments.Pairwise fun left right => left.span.stop < right.span.start := by
  induction tiles with
  | last => exact List.pairwise_singleton _ _
  | @more start raw after arguments _ _ tiles ih =>
      refine List.pairwise_cons.mpr ⟨?_, ih⟩
      intro later member
      have here := Argument.span_ofRaw_le raw start
      have there := tiles.bounds later member
      omega

/-- Every argument is trimmed from a complete draft. -/
theorem exists_draft
    (tiles : Tiles text closing start arguments) :
    ∀ argument ∈ arguments, ∃ raw rest position,
      Draft raw .code 0 ∧ text.drop position = raw ++ rest ∧
        argument = Argument.ofRaw raw position := by
  induction tiles with
  | @last start raw after draft behind _ =>
      intro argument member
      exact ⟨raw, _, start, draft, behind, List.mem_singleton.mp member⟩
  | @more start raw after arguments draft behind _ ih =>
      intro argument member
      rcases List.mem_cons.mp member with rfl | later
      · exact ⟨raw, _, start, draft, behind, rfl⟩
      · exact ih argument later

theorem isAllBlank_before
    (tiles : Tiles text closing start arguments)
    {first : Argument}
    (head : arguments.head? = some first) :
    Text.isAllBlank (Text.slice text ⟨start, first.span.start⟩) = true := by
  cases tiles with
  | last _ behind _ =>
      cases head
      exact (Argument.slices_ofRaw behind).1
  | more _ behind _ =>
      cases head
      exact (Argument.slices_ofRaw behind).1

theorem isAllBlank_behind
    (tiles : Tiles text closing start arguments)
    {final : Argument}
    (ending : arguments.getLast? = some final) :
    Text.isAllBlank (Text.slice text ⟨final.span.stop, closing⟩) = true := by
  induction tiles with
  | @last start raw after _ behind reached =>
      cases ending
      rw [← reached]
      exact (Argument.slices_ofRaw behind).2.2
  | @more start raw after arguments _ _ tiles ih =>
      obtain ⟨next, others, rfl⟩ := List.exists_cons_of_ne_nil tiles.ne_nil
      rw [List.getLast?_cons_cons] at ending
      exact ih ending

/-- Between two arguments there are blanks and one comma. -/
theorem parted
    (tiles : Tiles text closing start arguments) :
    arguments.IsChain fun left right => ∃ before behind,
      Text.isAllBlank before = true ∧ Text.isAllBlank behind = true ∧
        Text.slice text ⟨left.span.stop, right.span.start⟩ =
          before ++ ',' :: behind := by
  induction tiles with
  | last => exact .singleton _
  | @more start raw after arguments _ behind tiles ih =>
      obtain ⟨next, others, rfl⟩ := List.exists_cons_of_ne_nil tiles.ne_nil
      refine .cons_cons ?_ ih
      have here := Argument.span_ofRaw_le raw start
      have there := tiles.bounds next List.mem_cons_self
      have comma : Text.slice text ⟨start + raw.length,
          start + raw.length + 1⟩ = [','] :=
        @Text.slice_of_drop text [','] after _ (List.drop_add_length behind)
      refine ⟨_, _, (Argument.slices_ofRaw behind).2.2,
        tiles.isAllBlank_before rfl, ?_⟩
      rw [← Text.slice_append_slice here.2.2 (by omega : _ ≤ next.span.start),
        ← Text.slice_append_slice (Nat.le_succ _) there.1, comma]
      rfl

theorem isAllBlank_iff
    (tiles : Tiles text closing start arguments) :
    Text.isAllBlank (Text.slice text ⟨start, closing⟩) = true ↔
      arguments.map (·.text) = [[]] := by
  cases tiles with
  | @last _ raw after _ behind reached =>
      rw [← reached, Text.slice_of_drop behind, ← Text.trim_eq_nil_iff]
      simp [Argument.ofRaw]
  | @more _ raw after arguments _ behind tiles =>
      have comma : ',' ∈ Text.slice text ⟨start, closing⟩ := by
        have onward := tiles.start_le
        rw [← Text.slice_append_slice (Nat.le_add_right start raw.length)
          (by omega : _ ≤ closing), Text.slice, Text.slice,
          List.drop_add_length behind]
        have room : closing - (start + raw.length) =
            closing - (start + raw.length + 1) + 1 := by
          omega
        simp [room]
      constructor
      · intro blank
        have impossible := Text.isAllBlank_iff.mp blank ',' comma
        cases impossible
      · intro single
        simp [tiles.ne_nil] at single

end Tiles

/-- The arguments of a list account for the text between its parentheses. -/
structure Divides (list : ArgumentList) (text : Text)
    (opening closing : Nat) : Prop where
  inside : ∀ argument ∈ list.arguments, opening < argument.span.start ∧
    argument.span.start ≤ argument.span.stop ∧ argument.span.stop ≤ closing
  ordered : list.arguments.Pairwise fun left right =>
    left.span.stop < right.span.start
  spelled : ∀ argument ∈ list.arguments,
    Text.slice text argument.span = argument.text ∧ Text.trim argument.text =
      argument.text
  parted : list.arguments.IsChain fun left right => ∃ before behind,
    Text.isAllBlank before = true ∧ Text.isAllBlank behind = true ∧
      Text.slice text ⟨left.span.stop, right.span.start⟩ =
        before ++ ',' :: behind
  before : ∀ first, list.arguments.head? = some first →
    Text.isAllBlank (Text.slice text ⟨opening + 1, first.span.start⟩) = true
  behind : ∀ final, list.arguments.getLast? = some final →
    Text.isAllBlank (Text.slice text ⟨final.span.stop, closing⟩) = true
  balanced : ∀ argument ∈ list.arguments,
    Nesting.isBalanced argument.text = true
  commas : ∀ argument ∈ list.arguments, argument.text.CommasEnclosed
  empty : list.arguments = [] ↔
    Text.isAllBlank (Text.slice text ⟨opening + 1, closing⟩) = true

theorem divides_of_tiles
    {list : ArgumentList} {text : Text} {opening closing : Nat}
    {arguments : List Argument}
    (tiles : Tiles text closing (opening + 1) arguments)
    (made : list.arguments = if arguments.map (·.text) = [[]] then [] else
      arguments) :
    list.Divides text opening closing := by
  have blank := tiles.isAllBlank_iff
  by_cases void : arguments.map (·.text) = [[]]
  · -- Nothing but blanks stands between the parentheses.
    rw [if_pos void] at made
    have all : Text.isAllBlank (Text.slice text ⟨opening + 1, closing⟩) =
        true := blank.mpr void
    constructor <;> simp [made, all]
  · rw [if_neg void] at made
    constructor
    · rw [made]
      exact tiles.bounds
    · rw [made]
      exact tiles.ordered
    · rw [made]
      intro argument member
      obtain ⟨raw, rest, position, _, behind, rfl⟩ :=
        tiles.exists_draft argument member
      exact ⟨(Argument.slices_ofRaw behind).2.1,
        (Text.trimmed_trim raw).trim_eq⟩
    · rw [made]
      exact tiles.parted
    · rw [made]
      exact fun first head => tiles.isAllBlank_before head
    · rw [made]
      exact fun final ending => tiles.isAllBlank_behind ending
    · rw [made]
      intro argument member
      obtain ⟨raw, rest, position, draft, _, rfl⟩ :=
        tiles.exists_draft argument member
      exact draft.isBalanced_trim
    · rw [made]
      intro argument member
      obtain ⟨raw, rest, position, draft, _, rfl⟩ :=
        tiles.exists_draft argument member
      exact draft.commas_trim
    · rw [made, blank]
      exact ⟨fun none => absurd none tiles.ne_nil,
        fun single => absurd single void⟩

/-- The argument list at an opening parenthesis is there exactly when the
parenthesis is closed, ends behind the closing one, and its arguments account
for all that stands in between. -/
theorem at?_divides
    {text : Text} {opening : Nat}
    (opens : text[opening]? = some '(') :
    (at? text opening = none ↔ Nesting.closing? text opening = none) ∧
      ∀ list, at? text opening = some list →
        ∃ closing, Nesting.closing? text opening = some closing ∧
          list.stop = closing + 1 ∧
          list.Divides text opening closing := by
  have closing := closing?_eq_map_at? opens
  refine ⟨by rw [closing, Option.map_eq_none_iff], ?_⟩
  intro list found
  have read := (at?_eq_readFrom opens).symm.trans found
  have reached := stop_of_readFrom read
  obtain ⟨arguments, tiles, made⟩ :=
    exists_tiles (readFrom_eq_some_iff.mp read) rfl (Nat.add_zero _) .nil
  refine ⟨list.stop - 1, by rw [closing, found]; rfl, by omega,
    divides_of_tiles tiles ?_⟩
  exact made.trans (if_congr (and_iff_right rfl) rfl rfl)

/-- A list with an empty argument, a quoted comma and parenthesis, and a
group. -/
theorem at?_divides_mixed :
    "F( ,\"),\" , g(b, c) )".toList[1]? = some '(' ∧
      ∃ list closing,
        at? "F( ,\"),\" , g(b, c) )".toList 1 = some list ∧
          list.texts = ["".toList, "\"),\"".toList, "g(b, c)".toList] ∧
          Nesting.closing? "F( ,\"),\" , g(b, c) )".toList 1 = some closing ∧
          list.Divides "F( ,\"),\" , g(b, c) )".toList 1 closing := by
  have opens : "F( ,\"),\" , g(b, c) )".toList[1]? = some '(' := by decide
  have found : at? "F( ,\"),\" , g(b, c) )".toList 1 =
      some ⟨[⟨"".toList, ⟨3, 3⟩⟩,
        ⟨"\"),\"".toList, ⟨4, 8⟩⟩, ⟨"g(b, c)".toList, ⟨11, 18⟩⟩], 20⟩ := by
    decide
  obtain ⟨closing, closes, _, divides⟩ := (at?_divides opens).2 _ found
  exact ⟨opens, _, closing, found, rfl, closes, divides⟩

/-- A text that can be spelled out as an argument: it is trimmed, its
parentheses are balanced, its literals are closed, and no comma stands outside
its literals and parentheses. -/
structure IsArgument (text : Text) : Prop where
  trimmed : Text.trim text = text
  contained : text.Contained

instance (text : Text) : Decidable (IsArgument text) :=
  decidable_of_iff (Text.trim text = text ∧ text.Contained)
    ⟨fun both => ⟨both.1, both.2⟩,
      fun listed => ⟨listed.trimmed, listed.contained⟩⟩

theorem map_at?_spelling
    (name : Text)
    {arguments : List Text}
    (present : arguments ≠ [[]])
    (listed : ∀ argument ∈ arguments, IsArgument argument) :
    (at? (Use.mk name (some arguments)).spelling name.length).map
        (fun list => (list.texts, list.stop)) =
      some (arguments, (Use.mk name (some arguments)).spelling.length) := by
  obtain ⟨slots, rfl⟩ : ∃ slots : List Slot, slots.map (·.text) = arguments :=
    ⟨arguments.map fun argument => ⟨argument, true⟩,
      by simp [Function.comp_def]⟩
  rw [List.forall_mem_map] at listed
  have spelling : (Use.mk name (some (slots.map (·.text)))).spelling =
      Slot.callText name slots :=
    rfl
  have opens : (Slot.callText name slots)[name.length]? = some '(' := by
    simp [Slot.callText]
  have inner : (Slot.callText name slots).drop (name.length + 1) =
      Slot.join slots ++ [')'] := by
    simp [Slot.callText]
  have read := Slot.readFrom_callText name fun slot member =>
    (listed slot member).contained
  have texts : (if Slot.isVoid slots then []
      else Slot.arguments (name.length + 1) slots).map (·.text) =
        slots.map (·.text) := by
    rw [← Slot.map_trim_of_present
      (fun slot member => (listed slot member).trimmed) present,
      ← Slot.map_text_arguments (name.length + 1) slots]
    split
    · rfl
    · rfl
  rw [spelling, at?_eq_readFrom opens, inner, read, Option.map_some,
    ArgumentList.texts, texts]

/-- Reading a call that spells out arguments gives the arguments back, up to the
end of the call, so calls that are spelled alike have the same arguments. -/
theorem spelling_read_back
    (name : Text)
    {arguments : List Text}
    (present : arguments ≠ [[]])
    (listed : ∀ argument ∈ arguments, IsArgument argument) :
    (∃ list,
      at? (Use.mk name (some arguments)).spelling name.length = some list ∧
        list.texts = arguments ∧
        list.stop = (Use.mk name (some arguments)).spelling.length) ∧
      ∀ others : List Text,
        others ≠ [[]] →
        (∀ argument ∈ others, IsArgument argument) →
        (Use.mk name (some others)).spelling =
          (Use.mk name (some arguments)).spelling →
        others = arguments := by
  have read := map_at?_spelling name present listed
  refine ⟨?_, ?_⟩
  · obtain ⟨list, found, made⟩ := Option.map_eq_some_iff.mp read
    exact ⟨list, found, congrArg Prod.fst made, congrArg Prod.snd made⟩
  · intro others presentOthers listedOthers same
    have readOthers := map_at?_spelling name presentOthers listedOthers
    rw [same, read, Option.some.injEq, Prod.mk.injEq] at readOthers
    exact readOthers.1.symm

/-- Empty arguments in the first and the last place, a group, and a literal with
an escape. -/
theorem spelling_read_back_nested :
    (∀ argument ∈ ["", "g(a, b)", "\"\\\",)\"", ""].map String.toList,
      IsArgument argument) ∧
      ∃ list,
        at? "F(, g(a, b), \"\\\",)\", )".toList 1 = some list ∧
          list.texts = ["", "g(a, b)", "\"\\\",)\"", ""].map String.toList ∧
          list.stop = 22 := by
  have listed : ∀ argument ∈ ["", "g(a, b)", "\"\\\",)\"",
      ""].map String.toList, IsArgument argument := by
    decide
  exact ⟨listed, (spelling_read_back "F".toList (by decide) listed).1⟩

end ArgumentList

end MacroTrace
