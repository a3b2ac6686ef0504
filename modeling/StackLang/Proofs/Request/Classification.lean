import StackLang.Proofs.Command.Source
import StackLang.Proofs.Session.Service

namespace StackLang

namespace Form

mutual

/-- The atoms of a form at any depth, from left to right. -/
def leaves : Form → List Form
  | .int n => [.int n]
  | .float x => [.float x]
  | .symbol name => [.symbol name]
  | .text s => [.text s]
  | .list fs => leavesAll fs

def leavesAll : List Form → List Form
  | [] => []
  | f :: fs => leaves f ++ leavesAll fs

end

end Form

namespace Command

/-- A leaf that no command can be made from, and why. -/
inductive Unfit : Form → CodeError → Prop
  | float (x : Binary64) : Unfit (.float x) .usingFloat
  | text (s : String) : Unfit (.text s) .usingText
  | symbol {name : String} : (∀ b : Builtin, b.name ≠ name) →
    Unfit (.symbol name) (.unknownBuiltin name)

/-- What is wrong with the first of the leaves that are unfit. -/
inductive FirstUnfit : List Form → CodeError → Prop
  | here {f : Form} {fs : List Form} {e : CodeError} : Unfit f e → FirstUnfit (f :: fs) e
  | later {f : Form} {fs : List Form} {e : CodeError} : (∀ e', ¬ Unfit f e') → FirstUnfit fs e →
    FirstUnfit (f :: fs) e

def AllFit (fs : List Form) : Prop := ∀ f ∈ fs, ∀ e, ¬ Unfit f e

theorem Unfit.unique {f : Form} {e e' : CodeError} (h : Unfit f e) (h' : Unfit f e') :
    e = e' := by
  cases h <;> cases h' <;> rfl

theorem FirstUnfit.unique {fs : List Form} {e e' : CodeError} (h : FirstUnfit fs e)
    (h' : FirstUnfit fs e') : e = e' := by
  induction h with
  | here hf =>
    cases h' with
    | here hf' => exact hf.unique hf'
    | later hn _ => exact absurd hf (hn _)
  | later hn _ ih =>
    cases h' with
    | here hf' => exact absurd hf' (hn _)
    | later _ hs => exact ih hs

theorem FirstUnfit.not_allFit {fs : List Form} {e : CodeError} (h : FirstUnfit fs e) :
    ¬ AllFit fs := by
  induction h with
  | here hf => exact fun hall => hall _ List.mem_cons_self _ hf
  | later _ _ ih => exact fun hall => ih fun g hg => hall g (List.mem_cons_of_mem _ hg)

theorem FirstUnfit.append {fs : List Form} {e : CodeError} (h : FirstUnfit fs e)
    (gs : List Form) : FirstUnfit (fs ++ gs) e := by
  induction h with
  | here hf => exact .here hf
  | later hn _ ih => exact .later hn ih

theorem AllFit.firstUnfit_append {fs gs : List Form} {e : CodeError} (hf : AllFit fs)
    (h : FirstUnfit gs e) : FirstUnfit (fs ++ gs) e := by
  induction fs with
  | nil => exact h
  | cons f fs ih =>
    exact .later (hf f List.mem_cons_self) (ih fun g hg => hf g (List.mem_cons_of_mem f hg))

/-- An outcome that the leaves account for: success if all are fit, or else the error of the first
that is not. -/
def Judged {α : Type} (fs : List Form) : Except CodeError α → Prop
  | .ok _ => AllFit fs
  | .error e => FirstUnfit fs e

theorem Judged.map {α β : Type} {fs : List Form} {x : Except CodeError α} (h : Judged fs x)
    (g : α → β) : Judged fs (x.map g) := by
  cases x <;> exact h

theorem Judged.bind {α β : Type} {fs gs : List Form} {x : Except CodeError α}
    {g : α → Except CodeError β} (hx : Judged fs x) (hg : ∀ a, Judged gs (g a)) :
    Judged (fs ++ gs) (x.bind g) := by
  cases x with
  | error e => exact FirstUnfit.append hx gs
  | ok a =>
    have h := hg a
    change Judged (fs ++ gs) (g a)
    generalize g a = y at h ⊢
    cases y with
    | ok b =>
      intro f hf
      exact (List.mem_append.1 hf).elim (hx f) (h f)
    | error e => exact AllFit.firstUnfit_append hx h

theorem ofForms_cons (f : Form) (fs : List Form) :
    ofForms (f :: fs) = (ofForm f).bind fun c => (ofForms fs).map (c :: ·) := by
  rw [ofForms]
  cases ofForm f with
  | error e => rfl
  | ok c => cases ofForms fs <;> rfl

mutual

theorem judged_ofForm : (f : Form) → Judged f.leaves (ofForm f)
  | .int n => by
    intro f hf e he
    obtain rfl := List.mem_singleton.1 hf
    cases he
  | .float x => .here (.float x)
  | .text s => .here (.text s)
  | .symbol name => by
    rw [ofForm, Form.leaves]
    cases hb : Builtin.ofName name with
    | ok b =>
      intro f hf e he
      obtain rfl := List.mem_singleton.1 hf
      cases he with
      | symbol hn => exact hn b (Builtin.name_of_ofName hb)
    | error e =>
      obtain ⟨rfl, hn⟩ := Builtin.ofName_eq_error hb
      exact .here (.symbol hn)
  | .list fs => by
    rw [ofForm, Form.leaves]
    exact (judged_ofForms fs).map _

theorem judged_ofForms : (fs : List Form) → Judged (Form.leavesAll fs) (ofForms fs)
  | [] => nofun
  | f :: fs => by
    rw [ofForms_cons, Form.leavesAll]
    exact (judged_ofForm f).bind fun c => (judged_ofForms fs).map _

end

theorem ofForms_of_firstUnfit {fs : List Form} {e : CodeError}
    (h : FirstUnfit (Form.leavesAll fs) e) : ofForms fs = .error e := by
  have hj := judged_ofForms fs
  generalize ofForms fs = x at hj ⊢
  cases x with
  | ok cs => exact absurd hj h.not_allFit
  | error e' => rw [h.unique hj]

end Command

namespace Request

/-- What a list is taken for: a request, or the error of the first check that fails. -/
inductive Classified : List Form → Except Error Request → Prop
  | empty : Classified [] (.error (.request (.notEnoughArgs "()")))
  | headless {head : Form} {items : List Form} : (∀ name, head ≠ .symbol name) →
    Classified (head :: items) (.error (.request .notASymbol))
  | short {items : List Form} : items.length < 2 →
    Classified (.symbol "def" :: items) (.error (.request (.notEnoughArgs "def")))
  | nameless {target arity : Form} {body : List Form} : (∀ name, target ≠ .symbol name) →
    Classified (.symbol "def" :: target :: arity :: body) (.error (.request .notASymbol))
  | noArity {name : String} {arity : Form} {body : List Form} : (∀ k : Nat, arity ≠ .int k) →
    Classified (.symbol "def" :: .symbol name :: arity :: body)
      (.error (.request .notAnInteger))
  | noCode {name : String} {k : Nat} {body : List Form} {e : CodeError} :
    Command.FirstUnfit (Form.leavesAll body) e →
    Classified (.symbol "def" :: .symbol name :: .int k :: body) (.error (.code e))
  /-- The commands are those that are written like the body. -/
  | definition {name : String} {k : Nat} {body : List Form} {code : List Command} :
    Command.AllFit (Form.leavesAll body) → Command.toForms code = body →
    Classified (.symbol "def" :: .symbol name :: .int k :: body) (.ok (.definition name ⟨k, code⟩))
  | illegal {name : String} {numbers : List Int} {f : Form} {rest : List Form} : name ≠ "def" →
    (∀ n, f ≠ .int n) →
    Classified (.symbol name :: (numbers.map .int ++ f :: rest))
      (.error (.request (.illegalArgumentType f)))
  | call {name : String} {numbers : List Int} : name ≠ "def" →
    Classified (.symbol name :: numbers.map .int) (.ok (.call name numbers))

theorem arguments_illegal (numbers : List Int) {f : Form} (hf : ∀ n, f ≠ .int n)
    (rest : List Form) :
    arguments (numbers.map .int ++ f :: rest) = .error (.illegalArgumentType f) := by
  induction numbers with
  | nil =>
    cases f with
    | int n => exact absurd rfl (hf n)
    | _ => rfl
  | cons n numbers ih =>
    rw [List.map_cons, List.cons_append, arguments, ih]
    rfl

/-- Forms are all numbers, or there is a first that is none. -/
theorem numbers_cases (fs : List Form) :
    (∃ numbers : List Int, fs = numbers.map .int) ∨
    ∃ (numbers : List Int) (f : Form) (rest : List Form),
      fs = numbers.map .int ++ f :: rest ∧ ∀ n, f ≠ .int n := by
  induction fs with
  | nil => exact .inl ⟨[], rfl⟩
  | cons f fs ih =>
    by_cases hf : ∃ n, f = .int n
    · obtain ⟨n, rfl⟩ := hf
      obtain ⟨numbers, rfl⟩ | ⟨numbers, g, rest, rfl, hg⟩ := ih
      · exact .inl ⟨n :: numbers, rfl⟩
      · exact .inr ⟨n :: numbers, g, rest, rfl, hg⟩
    · exact .inr ⟨[], f, fs, rfl, fun n h => hf ⟨n, h⟩⟩

theorem ofForms_of_classified {items : List Form} {r : Except Error Request}
    (h : Classified items r) : ofForms items = r := by
  cases h with
  | empty => rfl
  | @headless head items hh =>
    cases head with
    | symbol name => exact absurd rfl (hh name)
    | _ => rfl
  | @short items hl =>
    rw [ofForms, if_pos rfl]
    rcases items with _ | ⟨target, _ | ⟨arity, body⟩⟩
    · rfl
    · cases target <;> rfl
    · simp only [List.length_cons] at hl
      omega
  | @nameless target arity body ht =>
    rw [ofForms, if_pos rfl]
    cases target with
    | symbol name => exact absurd rfl (ht name)
    | _ => rfl
  | @noArity name arity body ha =>
    rw [ofForms, if_pos rfl]
    cases arity with
    | int n =>
      -- A number that is no arity is negative.
      have hn : n < 0 := by
        by_contra hn
        exact ha n.toNat (by rw [Int.toNat_of_nonneg (by omega)])
      rw [definitionOfForms, if_pos hn]
    | _ => rfl
  | @noCode name k body e hb =>
    rw [ofForms, if_pos rfl, definitionOfForms, if_neg (by omega),
      Command.ofForms_of_firstUnfit hb]
  | @definition name k body code _ hc =>
    rw [ofForms, if_pos rfl, definitionOfForms, if_neg (by omega), ← hc,
      Command.ofForms_toForms]
  | @illegal name numbers f rest hn hf => rw [ofForms, if_neg hn, arguments_illegal numbers hf]
  | @call name numbers hn => rw [ofForms, if_neg hn, arguments_map_int]

theorem exists_classified_def (items : List Form) :
    ∃ r, Classified (.symbol "def" :: items) r := by
  rcases items with _ | ⟨target, _ | ⟨arity, body⟩⟩
  · exact ⟨_, .short (by simp)⟩
  · exact ⟨_, .short (by simp)⟩
  by_cases ht : ∃ name, target = .symbol name
  · obtain ⟨name, rfl⟩ := ht
    by_cases ha : ∃ k : Nat, arity = .int k
    · obtain ⟨k, rfl⟩ := ha
      have hj := Command.judged_ofForms body
      cases hb : Command.ofForms body with
      | ok code =>
        rw [hb] at hj
        exact ⟨_, .definition hj (Command.toForms_of_ofForms hb)⟩
      | error e =>
        rw [hb] at hj
        exact ⟨_, .noCode hj⟩
    · exact ⟨_, .noArity fun k hk => ha ⟨k, hk⟩⟩
  · exact ⟨_, .nameless fun name hn => ht ⟨name, hn⟩⟩

theorem exists_classified (items : List Form) : ∃ r, Classified items r := by
  rcases items with _ | ⟨head, items⟩
  · exact ⟨_, .empty⟩
  by_cases hh : ∃ name, head = .symbol name
  · obtain ⟨name, rfl⟩ := hh
    by_cases hn : name = "def"
    · subst hn
      exact exists_classified_def items
    · obtain ⟨numbers, rfl⟩ | ⟨numbers, f, rest, rfl, hf⟩ := numbers_cases items
      · exact ⟨_, .call hn⟩
      · exact ⟨_, .illegal hn hf⟩
  · exact ⟨_, .headless fun name hn => hh ⟨name, hn⟩⟩

/-- Every list is taken for what it is classified as, and for nothing else. -/
theorem ofForms_iff_classified (items : List Form) (r : Except Error Request) :
    ofForms items = r ↔ Classified items r := by
  constructor
  · rintro rfl
    obtain ⟨r, hr⟩ := exists_classified items
    rwa [ofForms_of_classified hr]
  · exact ofForms_of_classified

/-- Two leaves are unfit, the one inside the block comes first. -/
example : ofForms [.symbol "def", .symbol "f", .int 0, .list [.int 1, .symbol "nope"], .text "a"] =
    .error (.code (.unknownBuiltin "nope")) := rfl

end Request
end StackLang
