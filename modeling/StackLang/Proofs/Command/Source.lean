import StackLang.Proofs.Reader.Layout
import StackLang.Stack

namespace StackLang

theorem Builtin.name_of_ofName {name : String} {b : Builtin} (h : ofName name = .ok b) :
    b.name = name := by
  unfold ofName at h
  split at h
  · next found hfound =>
    cases h
    simpa using List.find?_some hfound
  · cases h

theorem Builtin.ofName_name (b : Builtin) : ofName b.name = .ok b := by
  rw [ofName, ofName?_name]

theorem Builtin.ofName_eq_error {name : String} {e : CodeError} (h : ofName name = .error e) :
    e = .unknownBuiltin name ∧ ∀ b : Builtin, b.name ≠ name := by
  constructor
  · unfold ofName at h
    split at h <;> cases h
    rfl
  · rintro b rfl
    rw [ofName_name] at h
    cases h

theorem Builtin.isName_name (b : Builtin) : Form.isName b.name.toList = true := by
  have hall : ∀ x ∈ all, Form.isName x.name.toList = true := by decide
  exact hall b (mem_all b)

namespace Command

mutual

/-- The form that a command is written as. -/
def toForm : Command → Form
  | .int n => .int n
  | .builtin b => .symbol b.name
  | .block body => .list (toForms body)

def toForms : List Command → List Form
  | [] => []
  | c :: cs => toForm c :: toForms cs

end

mutual

theorem ofForm_toForm : (c : Command) → ofForm c.toForm = .ok c
  | .int n => rfl
  | .builtin b => by rw [toForm, ofForm, Builtin.ofName_name]; rfl
  | .block body => by rw [toForm, ofForm, ofForms_toForms body]; rfl

theorem ofForms_toForms : (cs : List Command) → ofForms (toForms cs) = .ok cs
  | [] => rfl
  | c :: cs => by rw [toForms, ofForms, ofForm_toForm c, ofForms_toForms cs]; rfl

end

theorem ofForms_cons_eq_ok {f : Form} {fs : List Form} {code : List Command}
    (h : ofForms (f :: fs) = .ok code) :
    ∃ c cs, ofForm f = .ok c ∧ ofForms fs = .ok cs ∧ code = c :: cs := by
  rw [ofForms] at h
  cases hf : ofForm f with
  | error e => rw [hf] at h; cases h
  | ok c =>
    cases hfs : ofForms fs with
    | error e => rw [hf, hfs] at h; cases h
    | ok cs =>
      rw [hf, hfs] at h
      cases h
      exact ⟨c, cs, rfl, rfl, rfl⟩

mutual

/-- There is only one form that a command can be made from. -/
theorem toForm_of_ofForm : {f : Form} → {c : Command} → ofForm f = .ok c → c.toForm = f
  | .int n, c, h => by cases h; rfl
  | .symbol name, c, h => by
    rw [ofForm] at h
    cases hb : Builtin.ofName name with
    | error e => rw [hb] at h; cases h
    | ok b =>
      rw [hb] at h
      cases h
      rw [toForm, Builtin.name_of_ofName hb]
  | .list fs, c, h => by
    rw [ofForm] at h
    cases hfs : ofForms fs with
    | error e => rw [hfs] at h; cases h
    | ok cs =>
      rw [hfs] at h
      cases h
      rw [toForm, toForms_of_ofForms hfs]
  | .float x, c, h => by cases h
  | .text s, c, h => by cases h

theorem toForms_of_ofForms :
    {fs : List Form} → {cs : List Command} → ofForms fs = .ok cs → toForms cs = fs
  | [], cs, h => by cases h; rfl
  | f :: fs, cs, h => by
    obtain ⟨c, cs, hf, hfs, rfl⟩ := ofForms_cons_eq_ok h
    rw [toForms, toForm_of_ofForm hf, toForms_of_ofForms hfs]

end

mutual

theorem chars_toForm : (c : Command) → c.toForm.chars = c.chars
  | .int n => rfl
  | .builtin b => rfl
  | .block body => by rw [toForm, Form.chars, charsEach_toForms body, chars]

theorem charsEach_toForms : (cs : List Command) → Form.charsEach (toForms cs) = charsEach cs
  | [] => rfl
  | c :: cs => by
    rw [toForms, Form.charsEach, chars_toForm c, charsEach_toForms cs, charsEach]

end

theorem source_toForm (c : Command) : c.toForm.source = c.source := by
  rw [Form.source, chars_toForm, source]

mutual

theorem wellFormed_toForm : (c : Command) → c.toForm.wellFormed = true
  | .int _ => rfl
  | .builtin b => b.isName_name
  | .block body => wellFormedAll_toForms body

theorem wellFormedAll_toForms : (cs : List Command) → Form.wellFormedAll (toForms cs) = true
  | [] => rfl
  | c :: cs => by
    rw [toForms, Form.wellFormedAll, wellFormed_toForm c, wellFormedAll_toForms cs]
    rfl

end

theorem readText_sourceAll (code : List Command) :
    readText (sourceAll code) = .ok (toForms code) := by
  rw [sourceAll, ← charsEach_toForms]
  exact readText_layout (wellFormedAll_toForms code) (layout_spaced (toForms code))

theorem sourceAll_injective : Function.Injective sourceAll := by
  intro cs ds h
  have hc := readText_sourceAll cs
  rw [h, readText_sourceAll ds] at hc
  have hforms : toForms ds = toForms cs := Except.ok.inj hc
  have hcode := ofForms_toForms cs
  rw [← hforms, ofForms_toForms ds] at hcode
  exact (Except.ok.inj hcode).symm

end Command

namespace Stack

theorem toCommand_injective : Function.Injective Value.toCommand := by
  intro v w h
  cases v <;> cases w <;> cases h <;> rfl

theorem rows_eq_charsEach (s : Stack) :
    s.rows = Command.charsEach (s.bottomUp.map Value.toCommand) := by
  rw [rows, Command.charsEach_eq_map, List.map_map]
  rfl

theorem source_injective : Function.Injective source := by
  intro s t h
  have hchars : '[' :: spaced s.rows ++ [']'] = '[' :: spaced t.rows ++ [']'] :=
    String.ofList_injective h
  have hrows : spaced s.rows = spaced t.rows :=
    List.append_cancel_right (List.cons.inj hchars).2
  have hcode : Command.sourceAll (s.bottomUp.map Value.toCommand) =
      Command.sourceAll (t.bottomUp.map Value.toCommand) := by
    rw [Command.sourceAll, Command.sourceAll, ← rows_eq_charsEach, ← rows_eq_charsEach, hrows]
  have hvalues : s.bottomUp = t.bottomUp :=
    (List.map_inj_right fun _ _ hv => toCommand_injective hv).1 (Command.sourceAll_injective hcode)
  exact List.reverse_inj.1 hvalues

end Stack

namespace Command

theorem intercalate_source (code : List Command) :
    String.intercalate " " (code.map source) = sourceAll code := by
  have hsources : (toForms code).map Form.source = code.map source := by
    induction code with
    | nil => rfl
    | cons c code ih => rw [toForms, List.map_cons, source_toForm, ih, List.map_cons]
  rw [← hsources, ← spaced_eq_intercalate, charsEach_toForms, sourceAll]

/-- Making code from forms, writing and reading go together. A form and the command made from it are
written alike; code is the same again when it is written, read and made anew; and no two stacks are
written alike. -/
theorem source_read_back :
    (∀ f c, ofForm f = .ok c → c.source = f.source) ∧
    (∀ code : List Command, ∃ forms,
      readText (String.intercalate " " (code.map source)) = .ok forms ∧
        ofForms forms = .ok code) ∧
    (∀ s t : Stack, s.source = t.source → s = t) := by
  refine ⟨?_, ?_, ?_⟩
  · intro f c h
    rw [← toForm_of_ofForm h, source_toForm]
  · intro code
    refine ⟨toForms code, ?_, ofForms_toForms code⟩
    rw [intercalate_source, readText_sourceAll]
  · intro s t h
    exact Stack.source_injective h

/-- Code with blocks, from forms and from text, and a stack with a block on it. -/
theorem source_read_back_quoted :
    (ofForm (.list [.int (-2), .list [.symbol "mul"], .symbol "exec"]) =
        .ok (.block [.int (-2), .block [.builtin (.primitive .mul)], .builtin .exec]) ∧
      (Command.block [.int (-2), .block [.builtin (.primitive .mul)], .builtin .exec]).source =
        (Form.list [.int (-2), .list [.symbol "mul"], .symbol "exec"]).source) ∧
    (∃ forms, readText "-2 (3 (mul)) exec" = .ok forms ∧ ofForms forms =
      .ok [.int (-2), .block [.int 3, .block [.builtin (.primitive .mul)]], .builtin .exec]) ∧
    (Stack.source (.ofBottomUp [.int 1, .block [.builtin .exec]]) = "[1 (exec)]" ∧
      Stack.source [.block [.builtin .exec], .int 1] = "[1 (exec)]" ∧
      Stack.ofBottomUp [.int 1, .block [.builtin .exec]] = [.block [.builtin .exec], .int 1]) := by
  have hcode : ofForm (.list [.int (-2), .list [.symbol "mul"], .symbol "exec"]) =
      .ok (.block [.int (-2), .block [.builtin (.primitive .mul)], .builtin .exec]) := rfl
  have hread := source_read_back.2.1
    [.int (-2), .block [.int 3, .block [.builtin (.primitive .mul)]], .builtin .exec]
  have hpushed : Stack.source (.ofBottomUp [.int 1, .block [.builtin .exec]]) = "[1 (exec)]" := by
    decide
  have hwritten : Stack.source [.block [.builtin .exec], .int 1] = "[1 (exec)]" := by decide
  exact ⟨⟨hcode, source_read_back.1 _ _ hcode⟩, hread, hpushed, hwritten,
    source_read_back.2.2 _ _ (hpushed.trans hwritten.symm)⟩

end Command
end StackLang
