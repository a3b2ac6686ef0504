import StackLang.Form.Printer
import StackLang.Proofs.Reader.Acceptance

namespace StackLang

namespace Form

/-- A row of symbol characters that stands for no number. -/
def isName (cs : List Char) : Bool :=
  !cs.isEmpty && cs.all Token.isSymbolic && (Decimal.value? cs).isNone && (Grammar.float? cs).isNone

mutual

/-- Forms made of whole numbers, texts and symbols that are names. -/
def wellFormed : Form → Bool
  | .int _ => true
  | .float _ => false
  | .symbol name => isName name.toList
  | .text _ => true
  | .list fs => wellFormedAll fs

def wellFormedAll : List Form → Bool
  | [] => true
  | f :: fs => wellFormed f && wellFormedAll fs

end

theorem wellFormedAll_eq_all (fs : List Form) : wellFormedAll fs = fs.all wellFormed := by
  induction fs with
  | nil => rfl
  | cons f fs ih => rw [wellFormedAll, ih, List.all_cons]

end Form

/-- Blanks and comments in any order. Every comment ends with its line. -/
inductive Filler : List Char → Prop
  | nil : Filler []
  | blank {c : Char} {cs : List Char} : Token.isBlank c = true → Filler cs → Filler (c :: cs)
  | comment {body cs : List Char} : '\n' ∉ body → Filler cs → Filler (';' :: (body ++ '\n' :: cs))

/-- Filler that starts with a blank. -/
inductive Gap : List Char → Prop
  | intro {c : Char} {cs : List Char} : Token.isBlank c = true → Filler cs → Gap (c :: cs)

/-- A gap where none is needed. -/
def Margin (cs : List Char) : Prop := cs = [] ∨ Gap cs

mutual

/-- The texts that a form may be written as: what is printed, with gaps instead of single spaces
and with margins inside the parentheses. -/
inductive Written : Form → List Char → Prop
  | int (n : Int) : Written (.int n) (Form.int n).chars
  | float (x : Binary64) : Written (.float x) (Form.float x).chars
  | symbol (name : String) : Written (.symbol name) (Form.symbol name).chars
  | text (s : String) : Written (.text s) (Form.text s).chars
  | list {fs : List Form} {before body after : List Char} : Margin before → WrittenAll fs body →
      Margin after → Written (.list fs) ('(' :: (before ++ (body ++ (after ++ [')']))))

/-- The texts that forms may be written as side by side. -/
inductive WrittenAll : List Form → List Char → Prop
  | nil : WrittenAll [] []
  | singleton {f : Form} {cs : List Char} : Written f cs → WrittenAll [f] cs
  | cons {f g : Form} {fs : List Form} {cs gap ds : List Char} : Written f cs → Gap gap →
      WrittenAll (g :: fs) ds → WrittenAll (f :: g :: fs) (cs ++ (gap ++ ds))

end

/-- Forms written side by side with margins around them all. -/
def Layout (fs : List Form) (text : List Char) : Prop :=
  ∃ before body after, Margin before ∧ WrittenAll fs body ∧ Margin after ∧
    text = before ++ (body ++ after)

theorem gap_space : Gap [' '] := .intro rfl .nil

mutual

theorem written_chars : (f : Form) → Written f f.chars
  | .int n => .int n
  | .float x => .float x
  | .symbol name => .symbol name
  | .text s => .text s
  | .list fs => .list (.inl rfl) (writtenAll_spaced fs) (.inl rfl)

theorem writtenAll_spaced : (fs : List Form) → WrittenAll fs (spaced (Form.charsEach fs))
  | [] => .nil
  | [f] => by
    have hf := written_chars f
    simpa [Form.charsEach, spaced] using WrittenAll.singleton hf
  | f :: g :: fs => by
    have hf := written_chars f
    have hs := writtenAll_spaced (g :: fs)
    simpa [Form.charsEach, spaced] using WrittenAll.cons hf gap_space hs

end

/-- One space between neighbours and no margin anywhere is a layout too. -/
theorem layout_spaced (fs : List Form) : Layout fs (spaced (Form.charsEach fs)) :=
  ⟨[], _, [], .inl rfl, writtenAll_spaced fs, .inl rfl, by simp⟩

namespace Grammar
open Token

theorem read_filler {gap : List Char} (h : Filler gap) (inside : Bool) (cs : List Char) :
    read inside (gap ++ cs) = read inside cs := by
  induction h with
  | nil => rfl
  | blank hc _ ih => rw [List.cons_append, read_blank hc, ih]
  | @comment body gap hn _ ih =>
    rw [List.cons_append, List.append_assoc, List.cons_append, read_comment, afterComment_append hn,
      ih]

theorem read_margin {margin : List Char} (h : Margin margin) (inside : Bool) (cs : List Char) :
    read inside (margin ++ cs) = read inside cs := by
  rcases h with rfl | ⟨hc, hf⟩
  · rfl
  · rw [List.cons_append, read_blank hc, read_filler hf]

theorem endsNumber_gap {gap : List Char} (h : Gap gap) (cs : List Char) :
    endsNumber (gap ++ cs).head? = true := by
  rcases h with ⟨hc, _⟩
  simp [endsNumber, hc]

theorem endsNumber_margin {margin cs : List Char} (h : Margin margin)
    (hcs : endsNumber cs.head? = true) : endsNumber (margin ++ cs).head? = true := by
  rcases h with rfl | h
  · exact hcs
  · exact endsNumber_gap h cs

theorem stops_of_endsNumber {rest : List Char} (h : endsNumber rest.head? = true) :
    Stops isSymbolic rest := by
  intro c hc
  rw [Option.mem_def.1 hc] at h
  exact isSymbolic_eq_false_of_endsNumber h

theorem value?_toDigits (negative : Bool) (n : Nat) :
    Decimal.value?.unsigned? negative (Nat.toDigits 10 n) = some (Decimal.signed negative n) := by
  have hv := @value?_unsigned _ [] (Decimal.isDigit_toDigits n) nofun negative
  simpa [Nat.toDigits_ne_nil, Decimal.digitsValue_toDigits] using hv

theorem float?_digits {cs : List Char} (h : ∀ c ∈ cs, c.isDigit = true) (negative : Bool) :
    float?.unsigned? negative cs = none := by
  have hf := @float?_eq_none cs [] h nofun nofun negative
  simpa using hf

def isSign (c : Char) : Bool := c == '-' || c == '+'

theorem stops_isSign {cs : List Char} (h : ∀ c ∈ cs.head?, c.isDigit = true) : Stops isSign cs := by
  intro c hc
  cases hs : isSign c with
  | false => rfl
  | true =>
    have he : c = '-' ∨ c = '+' := by simpa [isSign] using hs
    rcases he with rfl | rfl <;> cases h _ hc

theorem stops_of_isDigit {cs : List Char} (h : ∀ c ∈ cs, c.isDigit = true) : Stops isSign cs :=
  stops_isSign fun c hc => h c (List.mem_of_mem_head? hc)

theorem value?_eq_unsigned {cs : List Char} (h : Stops isSign cs) :
    Decimal.value? cs = Decimal.value?.unsigned? false cs := by
  unfold Decimal.value?
  split
  · cases h '-' rfl
  · cases h '+' rfl
  · rfl

theorem float?_eq_unsigned {cs : List Char} (h : Stops isSign cs) :
    float? cs = float?.unsigned? false cs := by
  unfold float?
  split
  · cases h '-' rfl
  · cases h '+' rfl
  · rfl

theorem value?_numeral (n : Int) : Decimal.value? (Decimal.numeral n) = some n := by
  cases n with
  | ofNat n =>
    have hs := stops_of_isDigit (Decimal.isDigit_toDigits n)
    rw [Decimal.numeral, value?_eq_unsigned hs, value?_toDigits]
    rfl
  | negSucc n =>
    change Decimal.value?.unsigned? true (Nat.toDigits 10 (n + 1)) = _
    rw [value?_toDigits]
    rfl

theorem digits_of_unsigned {negative : Bool} {cs : List Char} {n : Int}
    (h : Decimal.value?.unsigned? negative cs = some n) :
    cs ≠ [] ∧ ∀ c ∈ cs, c.isDigit = true := by
  unfold Decimal.value?.unsigned? at h
  split at h
  · next hc => simpa using hc
  · cases h

/-- Digits with an optional sign are a run of symbol characters without a point. -/
theorem run_of_value? {run : List Char} {n : Int} (h : Decimal.value? run = some n) :
    run ≠ [] ∧ (∀ c ∈ run, isSymbolic c = true) ∧ float? run = none := by
  unfold Decimal.value? at h
  split at h
  · next cs =>
    obtain ⟨-, hd⟩ := digits_of_unsigned h
    exact ⟨List.cons_ne_nil _ _, List.forall_mem_cons.2 ⟨rfl, fun c hc =>
      isSymbolic_of_isDigit (hd c hc)⟩, float?_digits hd true⟩
  · next cs =>
    obtain ⟨-, hd⟩ := digits_of_unsigned h
    exact ⟨List.cons_ne_nil _ _, List.forall_mem_cons.2 ⟨rfl, fun c hc =>
      isSymbolic_of_isDigit (hd c hc)⟩, float?_digits hd false⟩
  · obtain ⟨hne, hd⟩ := digits_of_unsigned h
    refine ⟨hne, fun c hc => isSymbolic_of_isDigit (hd c hc), ?_⟩
    rw [float?_eq_unsigned (stops_of_isDigit hd), float?_digits hd]

/-- A number is read from any of its decimal forms, whatever zeros and sign stand in front. -/
theorem read_decimal {run : List Char} {n : Int} (h : Decimal.value? run = some n)
    {rest : List Char} (hrest : endsNumber rest.head? = true) (inside : Bool) :
    read inside (run ++ rest) = before (.int n) (read inside rest) := by
  obtain ⟨hne, hrun, hf⟩ := run_of_value? h
  have ha : atom run rest.head? = .int n := by
    rw [atom, if_pos hrest, hf, h]
  rw [read_run hrun hne (stops_of_endsNumber hrest), ha]

theorem read_int (n : Int) {rest : List Char} (hrest : endsNumber rest.head? = true)
    (inside : Bool) :
    read inside ((Form.int n).chars ++ rest) = before (.int n) (read inside rest) :=
  read_decimal (value?_numeral n) hrest inside

theorem read_symbol {name : String} (hname : Form.isName name.toList = true) {rest : List Char}
    (hrest : endsNumber rest.head? = true) (inside : Bool) :
    read inside ((Form.symbol name).chars ++ rest) = before (.symbol name) (read inside rest) := by
  simp only [Form.isName, Bool.and_eq_true, Bool.not_eq_true', List.isEmpty_eq_false_iff,
    List.all_eq_true, Option.isNone_iff_eq_none] at hname
  obtain ⟨⟨⟨hne, hrun⟩, hv⟩, hf⟩ := hname
  have ha : atom name.toList rest.head? = .symbol name := by
    rw [atom, if_pos hrest, hf, hv, String.ofList_toList]
  rw [Form.chars, read_run hrun hne (stops_of_endsNumber hrest), ha]

theorem literal_literalChar (c : Char) (cs : List Char) :
    literal false (Form.literalChar c ++ cs) = (literal false cs).map (Prod.map (c :: ·) id) := by
  by_cases hq : c = '"'
  · subst hq
    rfl
  · by_cases hb : c = '\\'
    · subst hb
      rfl
    · rw [Form.literalChar, if_neg (by simp [hq, hb]), List.singleton_append, literal, if_neg hq,
        if_neg hb]

theorem literal_flatMap (value rest : List Char) :
    literal false (value.flatMap Form.literalChar ++ '"' :: rest) = some (value, rest) := by
  induction value with
  | nil => rfl
  | cons c value ih =>
    rw [List.flatMap_cons, List.append_assoc, literal_literalChar, ih]
    rfl

theorem read_literal (s : String) (rest : List Char) (inside : Bool) :
    read inside ((Form.text s).chars ++ rest) = before (.text s) (read inside rest) := by
  have hc : (Form.text s).chars ++ rest =
      '"' :: (s.toList.flatMap Form.literalChar ++ '"' :: rest) := by
    simp [Form.chars, Form.literal]
  rw [hc, read_text, literal_flatMap]
  dsimp only
  rw [String.ofList_toList]

theorem foldr_before_ok (fs : List Form) (rest : List Char) :
    fs.foldr before (.ok ([], rest)) = .ok (fs, rest) := by
  induction fs with
  | nil => rfl
  | cons f fs ih =>
    rw [List.foldr_cons, ih]
    rfl

mutual

/-- However it is written, a form is read back as it is, up to where it ends. -/
theorem read_written {f : Form} {cs : List Char} (h : Written f cs) (hf : f.wellFormed = true)
    {rest : List Char} (hrest : endsNumber rest.head? = true) (inside : Bool) :
    read inside (cs ++ rest) = before f (read inside rest) := by
  match h with
  | .int n => exact read_int n hrest inside
  | .float x => cases hf
  | .symbol name => exact read_symbol hf hrest inside
  | .text s => exact read_literal s rest inside
  | @Written.list fs a body b ha hs hb =>
    -- Behind the last item comes a blank or the closing parenthesis, and either ends a number.
    have hclose : endsNumber (b ++ ')' :: rest).head? = true := endsNumber_margin hb rfl
    have hr : read true (a ++ (body ++ (b ++ ')' :: rest))) = .ok (fs, rest) := by
      rw [read_margin ha, read_writtenAll hs hf hclose, read_margin hb, read_close,
        foldr_before_ok]
    simp only [List.cons_append, List.append_assoc, List.nil_append, read_list, hr]
    rfl

theorem read_writtenAll {fs : List Form} {cs : List Char} (h : WrittenAll fs cs)
    (hf : Form.wellFormedAll fs = true) {rest : List Char} (hrest : endsNumber rest.head? = true)
    (inside : Bool) : read inside (cs ++ rest) = fs.foldr before (read inside rest) := by
  match h with
  | .nil => rfl
  | .singleton hw =>
    simp only [Form.wellFormedAll, Bool.and_true] at hf
    exact read_written hw hf hrest inside
  | .cons hw hg hs =>
    rw [Form.wellFormedAll, Bool.and_eq_true] at hf
    rw [List.append_assoc, List.append_assoc, read_written hw hf.1 (endsNumber_gap hg _),
      read_margin (.inr hg), read_writtenAll hs hf.2 hrest]
    rfl

end

end Grammar

theorem readText_layout {fs : List Form} (hf : Form.wellFormedAll fs = true) {text : List Char}
    (h : Layout fs text) : readText (String.ofList text) = .ok fs := by
  obtain ⟨a, body, b, ha, hs, hb, rfl⟩ := h
  have hend : Token.endsNumber b.head? = true := by
    simpa using @Grammar.endsNumber_margin b [] hb rfl
  have hnil : Grammar.read false b = .ok ([], []) := by
    simpa [Grammar.read_nil] using Grammar.read_margin hb false []
  have hread : Grammar.read false (a ++ (body ++ b)) = .ok (fs, []) := by
    rw [Grammar.read_margin ha, Grammar.read_writtenAll hs hf hend, hnil, Grammar.foldr_before_ok]
  exact readText_eq_ok hread

theorem spaced_eq_intercalate (fs : List Form) :
    String.ofList (spaced (Form.charsEach fs)) = String.intercalate " " (fs.map Form.source) := by
  apply String.toList_injective
  rw [String.toList_ofList, String.toList_intercalate, Form.charsEach_eq_map, List.map_map, spaced]
  congr 1
  apply List.map_congr_left
  intro f _
  simp [Form.source]

/-- Reading undoes printing, whatever the layout. -/
theorem readText_printed (fs : List Form) (hf : ∀ f ∈ fs, f.wellFormed = true) :
    readText (String.intercalate " " (fs.map Form.source)) = .ok fs ∧
      ∀ text : String, Layout fs text.toList → readText text = .ok fs := by
  have hall : Form.wellFormedAll fs = true := by
    rw [Form.wellFormedAll_eq_all]
    exact List.all_eq_true.2 hf
  constructor
  · rw [← spaced_eq_intercalate]
    exact readText_layout hall (layout_spaced fs)
  · intro text h
    rw [← @String.ofList_toList text]
    exact readText_layout hall h

/-- Brackets and quotes inside a text and inside a comment, and symbols that start like numbers. -/
theorem readText_printed_nested :
    readText "\t;(\n( + ;)\n-120 \"\\\"\\\\;)\n\" () )\n1x 1." =
      .ok [.list [.symbol "+", .int (-120), .text "\"\\;)\n", .list []], .symbol "1x",
        .symbol "1."] := by
  have hline : Gap ['\n'] := .intro rfl .nil
  have htab : Gap "\t;(\n".toList := .intro rfl (@Filler.comment ['('] [] (by decide) .nil)
  have hnote : Gap " ;)\n".toList := .intro rfl (@Filler.comment [')'] [] (by decide) .nil)
  refine (readText_printed _ (by decide)).2 _ ⟨_, _, _, .inr htab,
    .cons (.list (.inr gap_space) (.cons (.symbol "+") hnote (.cons (.int (-120)) gap_space
      (.cons (.text "\"\\;)\n") gap_space (.singleton (.list (.inl rfl) .nil (.inl rfl))))))
      (.inr gap_space)) hline (.cons (.symbol "1x") gap_space (.singleton (.symbol "1."))),
    .inl rfl, ?_⟩
  decide

end StackLang
