import StackLang.Proofs.Buffered.Recognizers

namespace StackLang

/-- An attempt that is broken only behind so many characters, if at all. -/
def Attempt.BreaksBehind {α : Type} (n : Nat) (a : Attempt α) : Prop :=
  ∀ fault taken, a = .broken fault taken → n ≤ taken

namespace Attempt

theorem miss_breaksBehind {α : Type} (m n : Nat) : (miss m : Attempt α).BreaksBehind n := by
  rintro _ _ ⟨⟩

theorem BreaksBehind.orElse {α : Type} {a b : Attempt α} {n : Nat} (ha : a.BreaksBehind n)
    (hb : b.BreaksBehind n) : (a <|> b).BreaksBehind n := by
  intro fault taken h
  cases a with
  | hit => cases h
  | broken => exact ha fault taken h
  | miss m =>
    cases b with
    | hit => cases h
    | miss => cases h
    | broken => cases h; exact hb _ _ rfl

end Attempt

namespace Token

section
variable (cs : List Char) (n : Nat)

theorem examined_of_comment_eq_miss {n : Nat} (h : comment cs = .miss n) : n = 1 := by
  unfold comment at h
  split at h <;> cases h
  rfl

theorem text_breaksBehind : (text cs).BreaksBehind 1 := by
  intro fault taken h
  unfold text at h
  split at h
  · split at h
    · cases h
    · cases h
      omega
  · cases h

theorem integer_breaksBehind : (integer cs).BreaksBehind n := by
  intro fault taken h
  unfold integer at h
  dsimp only at h
  split at h <;> cases h

theorem float_breaksBehind : (float cs).BreaksBehind n := by
  intro fault taken h
  unfold float at h
  dsimp only at h
  split at h
  · split at h <;> cases h
  · cases h

theorem symbol_breaksBehind : (symbol cs).BreaksBehind n := by
  intro fault taken h
  unfold symbol at h
  dsimp only at h
  split at h <;> cases h

theorem symbol_orElse_miss : (symbol cs <|> Attempt.miss 0) = symbol cs := by
  cases symbol cs with
  | miss n => exact congrArg Attempt.miss (Nat.max_zero n)
  | _ => rfl

/-- One more recognizer that misses at once makes no difference behind that of comments. -/
theorem comment_orElse_miss (a : Attempt Item) :
    (comment cs <|> Attempt.miss 1 <|> a) = (comment cs <|> a) := by
  unfold comment
  split
  · rfl
  · cases a with
    | hit i taken examined => exact congrArg (Attempt.hit i taken) (by omega)
    | miss n => exact congrArg Attempt.miss (by omega)
    | broken => rfl

end
end Token

namespace Buffered

section
variable {σ : Type} [CharSource σ] {text : List Char} {d : Feed σ text} {p f : Nat}

section
omit [CharSource σ]
variable {x : ReaderM σ Finding} {others : List (ReaderM σ Finding)} {r t : Reader σ}

theorem firstOf_found {a : Finding} (h : x r = .ok a t) (ha : a.success = true) :
    firstOf (x :: others) r = .ok a t := by
  rw [firstOf, bind_ok h, if_pos ha]
  rfl

theorem firstOf_nothing (h : x r = .ok .nothing t) : firstOf (x :: others) r = firstOf others t :=
  bind_ok h

theorem firstOf_error {e : Failure} (h : x r = .error e t) :
    firstOf (x :: others) r = .error e t :=
  bind_error h

theorem onward_eq {α : Type} {enough : Reader σ → Prop} [DecidablePred enough]
    {k : (r : Reader σ) → enough r → Result σ α} {r : Reader σ} (h : enough r) :
    onward enough k r = k r h :=
  dif_pos h

end

/-- What a miss has looked at is there already for the attempt made next. A fault counts only what
has been taken, so it must not be in front of that. -/
theorem attempt_orElse (h : p ≤ f) {recognize rest : List Char → Attempt Item}
    (hbreaks : ∀ n, recognize (text.drop p) = .miss n → (rest (text.drop p)).BreaksBehind n) :
    (d.cursor p f).attempt (fun cs => recognize cs <|> rest cs) =
      match (d.cursor p f).attempt recognize with
      | .absent after => after.attempt rest
      | other => other := by
  rw [attempt_place (fun cs => recognize cs <|> rest cs) h rfl, attempt_place recognize h rfl]
  cases hr : recognize (text.drop p) with
  | hit i taken examined => rfl
  | broken fault taken => rfl
  | miss n =>
    have hmax (m : Nat) : max f (p + max n m) = max (max f (p + n)) (p + m) := by omega
    have hb := hbreaks n hr
    dsimp only
    rw [attempt_place rest (Nat.le_trans h (Nat.le_max_left _ _)) rfl]
    cases ho : rest (text.drop p) with
    | hit i taken examined =>
      exact congrArg (fun g => Scan.found i (d.cursor (p + taken) g)) (hmax examined)
    | miss m => exact congrArg (fun g => Scan.absent (d.cursor p g)) (hmax m)
    | broken fault taken =>
      have hn := hb fault taken ho
      have hg : max f (p + taken) = max (max f (p + n)) (p + taken) := by omega
      exact congrArg (fun g => (d.cursor (p + taken) g).fail fault) hg

/-- If each of two parsers comes to what its attempt comes to, wherever the text has been fetched up
to, then so do both in a row. -/
theorem firstOf_agree {parser : ReaderM σ Finding} {others : List (ReaderM σ Finding)}
    {recognize rest : List Char → Attempt Item}
    (hbreaks : ∀ n, recognize (text.drop p) = .miss n → (rest (text.drop p)).BreaksBehind n)
    (hfirst : ∀ f, p ≤ f → Agree d p (parser (.place d p f))
      (((d.cursor p f).attempt recognize).map some))
    (hothers : ∀ f, p ≤ f → Agree d p (firstOf others (.place d p f))
      (((d.cursor p f).attempt rest).map some)) (f : Nat) (h : p ≤ f) :
    Agree d p (firstOf (parser :: others) (.place d p f))
      (((d.cursor p f).attempt fun cs => recognize cs <|> rest cs).map some) := by
  have hfirst := hfirst f h
  rw [attempt_orElse h hbreaks]
  generalize hx : parser (.place d p f) = x at hfirst
  generalize (d.cursor p f).attempt recognize = s at hfirst ⊢
  cases s with
  | found i c =>
    cases hfirst with
    | found hp hi hf =>
      rw [firstOf_found hx rfl]
      exact .found hp hi hf
  | absent c =>
    cases hfirst with
    | nothing hf =>
      rw [firstOf_nothing hx]
      exact hothers _ hf
  | failed e c =>
    cases hfirst with
    | failed hf =>
      rw [firstOf_error hx]
      exact .failed hf

/-- The recognizers in their order, if the second one finds nothing here. -/
theorem firstOf_agree_any (h : p ≤ f) {parser : ReaderM σ Finding}
    (hp : ∀ f, p ≤ f →
      parser (.place d p f) = .ok .nothing (.place d p (max f (p + 1)))) :
    Agree d p
      (firstOf [comment, parser, Buffered.text, float, integer, symbol] (.place d p f))
      (((d.cursor p f).attempt Token.any).map some) := by
  -- The other recognizer, and the end of the row, look at no more than has been looked at already.
  have hany : Token.any = fun cs => Token.comment cs <|> Attempt.miss 1 <|> Token.text cs <|>
      Token.float cs <|> Token.integer cs <|> Token.symbol cs <|> Attempt.miss 0 := by
    funext cs
    rw [Token.comment_orElse_miss, Token.symbol_orElse_miss]
    rfl
  have hnone (f : Nat) (h : p ≤ f) : Agree d p (firstOf [] (.place d p f))
      (((d.cursor p f).attempt fun _ => .miss 0).map some) := by
    rw [attempt_place (fun _ => .miss 0) h rfl]
    dsimp only
    rw [Nat.add_zero, Nat.max_eq_left h]
    exact .nothing h
  have hparser (f : Nat) (h : p ≤ f) : Agree d p (parser (.place d p f))
      (((d.cursor p f).attempt fun _ => .miss 1).map some) := by
    rw [hp f h]
    exact Agree.of_miss h rfl rfl
  have hsymbol (n : Nat) := (Token.symbol_breaksBehind (text.drop p) n).orElse
    (Attempt.miss_breaksBehind 0 n)
  have hinteger (n : Nat) := (Token.integer_breaksBehind (text.drop p) n).orElse (hsymbol n)
  have hfloat (n : Nat) := (Token.float_breaksBehind (text.drop p) n).orElse (hinteger n)
  have htext := (Token.text_breaksBehind (text.drop p)).orElse (hfloat 1)
  rw [hany]
  refine firstOf_agree ?_ (fun f => comment_agree) (firstOf_agree ?_ hparser (firstOf_agree ?_
    (fun f => text_agree) (firstOf_agree ?_ (fun f => float_agree) (firstOf_agree ?_
      (fun f => integer_agree) (firstOf_agree ?_ (fun f => symbol_agree) hnone))))) f h
  · intro n hn
    rw [Token.examined_of_comment_eq_miss _ hn]
    exact (Attempt.miss_breaksBehind 1 1).orElse htext
  · rintro n ⟨⟩
    exact htext
  · exact fun n _ => hfloat n
  · exact fun n _ => hinteger n
  · exact fun n _ => hsymbol n
  · exact fun n _ => Attempt.miss_breaksBehind 0 n

theorem skipBlanks_place (h : p ≤ f) {q : Nat} (hq : p + Token.blankCount (text.drop p) = q) :
    (d.cursor p f).skipBlanks = d.cursor q (max f (q + 1)) := by
  subst hq
  rw [Cursor.skipBlanks, look_place h, advance_place]
  rfl

theorem unread_place_le {q g : Nat} (h : p ≤ f) (hq : p ≤ q) (hg : q ≤ g) :
    (Reader.place d q g).unread ≤ (Reader.place d p f).unread := by
  rw [unread_place h, unread_place hg]
  omega

theorem unread_place_lt {q g : Nat} (h : p ≤ f) (hq : p < q) (hg : q ≤ g) (hp : p < text.length) :
    (Reader.place d q g).unread < (Reader.place d p f).unread := by
  rw [unread_place h, unread_place hg]
  omega

theorem list_of_other (h : p ≤ f) (ho : text[p]? ≠ some '(') :
    list (.place d p f) = .ok .nothing (.place d p (max f (p + 1))) := by
  rw [list]
  exact recognizer_without '(' _ h ho

theorem form_agree_single (h : p ≤ f) {q : Nat} (hq : p + Token.blankCount (text.drop p) = q)
    (ho : text[q]? ≠ some '(') :
    Agree d p (form (.place d p f))
      ((d.cursor q (max f (q + 1))).single.map some) := by
  have hblanks := blanks_place (d := d) h hq
  have hpq : p ≤ q := hq ▸ Nat.le_add_right _ _
  have hqg : q < max f (q + 1) := Nat.le_max_right _ _
  -- The list parser is tried between the others, and gives way at once.
  have hlist (g : Nat) (hg : q ≤ g) :
      onward (·.unread ≤ (Reader.place d p f).unread) (fun t _h => list t) (.place d q g) =
        .ok .nothing (.place d q (max g (q + 1))) := by
    rw [onward_eq (unread_place_le h hpq hg), list_of_other hg ho]
  have hfirst := firstOf_agree_any (Nat.le_of_lt hqg) hlist
  rw [form, Cursor.single]
  generalize hx : firstOf _ (Reader.place d q (max f (q + 1))) = x at hfirst
  generalize (d.cursor q (max f (q + 1))).attempt Token.any = s at hfirst ⊢
  cases s with
  | found i c =>
    cases hfirst with
    | found hp hi hf =>
      rw [recognizer_found ((bind_ok hblanks).trans (bind_ok hx)) rfl rfl]
      exact .found (Nat.le_trans hpq hp) (fun hs => Nat.lt_of_le_of_lt hpq (hi hs)) hf
  | absent c =>
    cases hfirst with
    | nothing hf =>
      rw [recognizer_error ((bind_ok hblanks).trans (bind_ok hx))]
      exact .failed hf
  | failed e c =>
    cases hfirst with
    | failed hf =>
      rw [recognizer_error ((bind_ok hblanks).trans (bind_error hx))]
      exact .failed hf

end
end Buffered
end StackLang
