import StackLang.Proofs.Buffered.Place

namespace StackLang.Buffered

variable {σ : Type} [CharSource σ]

section
omit [CharSource σ]
variable {α β : Type} {x : ReaderM σ α} {k : α → ReaderM σ β} {r t : Reader σ}

theorem bind_ok {a : α} (h : x r = .ok a t) : (x >>= k) r = k a t := by
  change EStateM.bind x k r = _
  rw [EStateM.bind, h]

theorem bind_error {e : Failure} (h : x r = .error e t) : (x >>= k) r = .error e t := by
  change EStateM.bind x k r = _
  rw [EStateM.bind, h]

theorem map_ok {g : α → β} {a : α} (h : x r = .ok a t) : (g <$> x) r = .ok (g a) t := by
  change EStateM.map g x r = _
  unfold EStateM.map
  rw [h]

theorem map_error {g : α → β} {e : Failure} (h : x r = .error e t) :
    (g <$> x) r = .error e t := by
  change EStateM.map g x r = _
  unfold EStateM.map
  rw [h]

end

section
omit [CharSource σ]
variable {body : ReaderM σ Finding} {r t : Reader σ} {a : Finding}

theorem recognizer_eq (h : body r = .ok a t) :
    recognizer body r = .ok a (t.settle r.position a) := by
  change (body >>= fun a => modify (·.settle r.position a) >>= fun _ => pure a) r = _
  rw [bind_ok h]
  rfl

theorem recognizer_error {e : Failure} (h : body r = .error e t) :
    recognizer body r = .error e t := by
  change (body >>= fun a => modify (·.settle r.position a) >>= fun _ => pure a) r = _
  rw [bind_error h]

theorem recognizer_found (h : body r = .ok a t) (hs : a.success = true)
    (ha : a.adjustment? = none) : recognizer body r = .ok a t := by
  rw [recognizer_eq h, Reader.settle, ha]
  exact congrArg (EStateM.Result.ok a) (if_pos hs)

end

section
variable {body : ReaderM σ Finding} {text : List Char} {d : Feed σ text} {p f q g : Nat}
  {r : Reader σ} {a : Finding}

theorem recognizer_nothing (h : body (.place d p f) = .ok .nothing (.place d q g)) :
    recognizer body (.place d p f) = .ok .nothing (.place d p g) :=
  recognizer_eq h

theorem recognizer_back (h : body r = .ok a (.place d (q + 1) g))
    (ha : a.adjustment? = some (-1)) : recognizer body r = .ok a (.place d q g) := by
  have hq : ((q + 1 : Nat) : Int) + -1 = q := by omega
  rw [recognizer_eq h, Reader.settle, ha]
  exact congrArg (fun position => EStateM.Result.ok a { Reader.place d q g with position }) hq

end

section
variable {text : List Char} {d : Feed σ text} {p f : Nat}

theorem blanks_place (h : p ≤ f) {q : Nat} (hq : p + Token.blankCount (text.drop p) = q) :
    blanks (Reader.place d p f) =
      .ok ⟨true, none, some (-1)⟩ (.place d q (max f (q + 1))) := by
  subst hq
  unfold blanks
  exact recognizer_back (bind_ok (takeWhile_place Token.isBlank h rfl)) rfl

theorem lookahead_place (c : Option Char) (h : p ≤ f) :
    lookahead c (Reader.place d p f) =
      if text[p]? = c then .ok ⟨true, none, none⟩ (.place d (p + 1) (max f (p + 1)))
      else .ok .nothing (.place d p (max f (p + 1))) := by
  unfold lookahead
  by_cases hc : text[p]? = c
  · rw [if_pos hc]
    refine recognizer_found ((bind_ok (next_place h)).trans ?_) rfl rfl
    rw [beq_iff_eq.2 hc]
    rfl
  · rw [if_neg hc]
    refine recognizer_nothing (q := p + 1) ((bind_ok (next_place h)).trans ?_)
    rw [beq_eq_false_iff_ne.2 hc]
    rfl

theorem digitsFrom_place (negative : Bool) (h : p ≤ f) {cs : List Char} (hcs : text.drop p = cs) :
    numeral.digitsFrom negative text[p]? (.place d (p + 1) (max f (p + 1))) =
      .ok (if (cs.takeWhile Char.isDigit).isEmpty then none
          else some ⟨negative, cs.takeWhile Char.isDigit, (cs.dropWhile Char.isDigit).head?⟩)
        (.place d (p + (cs.takeWhile Char.isDigit).length + 1)
          (max f (p + (cs.takeWhile Char.isDigit).length + 1))) := by
  rw [getElem?_of_drop hcs]
  cases cs with
  | nil => rfl
  | cons c cs =>
    have ht := takeWhile_place (d := d) Char.isDigit (Nat.le_max_right f (p + 1)) (drop_succ hcs)
    cases hc : c.isDigit with
    | false =>
      rw [List.takeWhile_cons_of_neg (by simp [hc])]
      simp only [List.head?_cons, numeral.digitsFrom, hc]
      rfl
    | true =>
      rw [List.takeWhile_cons_of_pos hc, List.dropWhile_cons_of_pos hc]
      simp only [List.head?_cons, numeral.digitsFrom, hc, if_true]
      refine (bind_ok ht).trans (congrArg (EStateM.Result.ok _) (place_congr ?_ ?_))
      · simp only [List.length_cons]
        omega
      · simp only [List.length_cons]
        omega

theorem signed_place (negative : Bool) (h : p ≤ f) {c : Char} {cs : List Char}
    (hcs : text.drop p = c :: cs) :
    (next >>= numeral.digitsFrom negative) (Reader.place d (p + 1) (max f (p + 1))) =
      .ok (if (cs.takeWhile Char.isDigit).isEmpty then none
          else some ⟨negative, cs.takeWhile Char.isDigit, (cs.dropWhile Char.isDigit).head?⟩)
        (.place d (p + (1 + (cs.takeWhile Char.isDigit).length) + 1)
          (max f (p + (1 + (cs.takeWhile Char.isDigit).length) + 1))) := by
  have hle : p + 1 ≤ max f (p + 1) := Nat.le_max_right _ _
  rw [bind_ok (next_place hle), digitsFrom_place negative hle (drop_succ hcs)]
  exact congrArg (EStateM.Result.ok _) (place_congr (by omega) (by omega))

theorem numeral_place (h : p ≤ f) {cs : List Char} (hcs : text.drop p = cs) :
    numeral (Reader.place d p f) =
      .ok (if (Token.signedDigits cs).digits.isEmpty then none
          else some ⟨(Token.signedDigits cs).negative, (Token.signedDigits cs).digits,
            (Token.signedDigits cs).rest.head?⟩)
        (.place d (p + (Token.signedDigits cs).width + 1)
          (max f (p + (Token.signedDigits cs).width + 1))) := by
  unfold numeral
  refine (bind_ok (next_place h)).trans ?_
  have hunsigned := digitsFrom_place (d := d) false h hcs
  by_cases hp : cs.head? = some '+'
  · obtain ⟨cs, rfl⟩ := List.head?_eq_some_iff.1 hp
    rw [getElem?_of_drop hcs, if_pos (.inl rfl)]
    refine (signed_place false h hcs).trans ?_
    simp only [Token.signedDigits, Token.signedDigits.unsigned, Token.drop_length_takeWhile]
  by_cases hm : cs.head? = some '-'
  · obtain ⟨cs, rfl⟩ := List.head?_eq_some_iff.1 hm
    rw [getElem?_of_drop hcs, if_pos (.inr rfl)]
    refine (signed_place true h hcs).trans ?_
    simp only [Token.signedDigits, Token.signedDigits.unsigned, Token.drop_length_takeWhile]
  · rw [getElem?_of_drop hcs] at hunsigned ⊢
    rw [if_neg (not_or.2 ⟨hp, hm⟩), hunsigned, Token.signedDigits_eq_unsigned hp hm]
    simp only [Token.signedDigits.unsigned, Token.drop_length_takeWhile, Nat.zero_add]

theorem look_place (h : p ≤ f) (n : Nat) :
    (d.cursor p f).look n = d.cursor p (max f (p + n)) := by
  have hp : (d.cursor p f).position ≤ (d.cursor p f).fetched :=
    Nat.le_trans h (Nat.le_max_right _ _)
  exact (Cursor.look_on text hp n).trans
    (congrArg (Cursor.place text p) (Nat.max_assoc d.base f (p + n)))

theorem advance_place (n : Nat) :
    (d.cursor p f).advance n = d.cursor (p + n) f :=
  Cursor.advance_on text (.place text p (max d.base f)) n

theorem attempt_place {α : Type} (recognize : List Char → Attempt α) (h : p ≤ f)
    {cs : List Char} (hcs : text.drop p = cs) :
    (d.cursor p f).attempt recognize = match recognize cs with
      | .hit i taken examined => .found i (d.cursor (p + taken) (max f (p + examined)))
      | .miss examined => .absent (d.cursor p (max f (p + examined)))
      | .broken fault taken =>
        (d.cursor (p + taken) (max f (p + taken))).fail fault := by
  unfold Cursor.attempt
  have ha : (d.cursor p f).ahead = cs := hcs
  rw [ha]
  cases recognize cs with
  | hit i taken examined => simp only [look_place h, advance_place]
  | miss examined => simp only [look_place h]
  | broken fault taken => simp only [Cursor.take, look_place h, advance_place]

end

/-- A recognizer that started at a position and a scan of the text from there come to the same, and
are left at the same place. What has been found has moved the position forward; where nothing has
been found, it is back where it was. -/
inductive Agree {text : List Char} (d : Feed σ text) (start : Nat) :
    Result σ Finding → Scan (Option Item) → Prop
  | found {i : Option Item} {adjustment? : Option Int} {p f : Nat} : start ≤ p →
      (i.isSome → start < p) → p ≤ f →
      Agree d start (.ok ⟨true, i, adjustment?⟩ (.place d p f)) (.found i (d.cursor p f))
  | nothing {f : Nat} : start ≤ f →
      Agree d start (.ok .nothing (.place d start f)) (.absent (d.cursor start f))
  | failed {e : SyntaxError} {p f : Nat} : p ≤ f →
      Agree d start (.error (.error e) (.place d p f)) (.failed e (d.cursor p f))

section
variable {text : List Char} {d : Feed σ text} {p f : Nat} {cs : List Char}
  {recognize : List Char → Attempt Item}

theorem Agree.of_hit {i : Item} {taken examined : Nat} (h : p ≤ f) (hcs : text.drop p = cs)
    (hr : recognize cs = .hit i taken examined) (hpos : 0 < taken) (hle : taken ≤ examined)
    (adjustment? : Option Int) :
    Agree d p
      (.ok ⟨true, some i, adjustment?⟩ (.place d (p + taken) (max f (p + examined))))
      (((d.cursor p f).attempt recognize).map some) := by
  rw [attempt_place recognize h hcs, hr]
  exact .found (by omega) (fun _ => by omega) (by omega)

theorem Agree.of_miss {examined : Nat} (h : p ≤ f) (hcs : text.drop p = cs)
    (hr : recognize cs = .miss examined) :
    Agree d p (.ok .nothing (.place d p (max f (p + examined))))
      (((d.cursor p f).attempt recognize).map some) := by
  rw [attempt_place recognize h hcs, hr]
  exact .nothing (by omega)

theorem Agree.of_broken {fault : SyntaxFault} {taken : Nat} (h : p ≤ f) (hcs : text.drop p = cs)
    (hr : recognize cs = .broken fault taken) :
    Agree d p (raise fault (.place d (p + taken) (max f (p + taken))))
      (((d.cursor p f).attempt recognize).map some) := by
  rw [attempt_place recognize h hcs, hr]
  exact .failed (d := d) (Nat.le_max_right _ _)

theorem Agree.of_nothing {body : ReaderM σ Finding} {q examined : Nat} (h : p ≤ f)
    (hcs : text.drop p = cs) (hr : recognize cs = .miss examined)
    (hb : body (.place d p f) = .ok .nothing (.place d q (max f (p + examined)))) :
    Agree d p (recognizer body (.place d p f))
      (((d.cursor p f).attempt recognize).map some) := by
  rw [recognizer_nothing hb]
  exact .of_miss h hcs hr

theorem Agree.of_foundBefore {body : ReaderM σ Finding} {i : Item} {taken : Nat} (h : p ≤ f)
    (hcs : text.drop p = cs) (hr : recognize cs = .hit i taken (taken + 1)) (hpos : 0 < taken)
    (hb : body (.place d p f) =
      .ok (.foundBefore i) (.place d (p + taken + 1) (max f (p + (taken + 1))))) :
    Agree d p (recognizer body (.place d p f))
      (((d.cursor p f).attempt recognize).map some) := by
  rw [recognizer_back hb rfl]
  exact .of_hit h hcs hr hpos (Nat.le_succ taken) _

theorem recognizer_without (c : Char) (body : ReaderM σ Finding) (h : p ≤ f)
    (hc : text[p]? ≠ some c) :
    recognizer (do if (← next) = some c then body else return .nothing) (.place d p f) =
      .ok .nothing (.place d p (max f (p + 1))) := by
  refine recognizer_nothing (q := p + 1) ((bind_ok (next_place h)).trans ?_)
  rw [if_neg hc]
  rfl

theorem recognizer_with {c : Char} {body : ReaderM σ Finding} {r : Result σ Finding} (h : p ≤ f)
    (hc : text[p]? = some c) (hb : body (.place d (p + 1) (max f (p + 1))) = r) :
    (do if (← next) = some c then body else return .nothing : ReaderM σ Finding)
      (.place d p f) = r := by
  refine (bind_ok (next_place h)).trans ?_
  rw [if_pos hc, hb]

theorem exists_drop_eq_cons {c : Char} (h : text[p]? = some c) :
    ∃ cs, text.drop p = c :: cs := by
  rw [← List.head?_drop] at h
  exact List.head?_eq_some_iff.1 h

theorem comment_agree (h : p ≤ f) :
    Agree d p (comment (.place d p f))
      (((d.cursor p f).attempt Token.comment).map some) := by
  by_cases hc : text[p]? = some ';'
  · obtain ⟨cs, hcs⟩ := exists_drop_eq_cons hc
    have hw := takeWhile_place (d := d) (· ≠ '\n') (Nat.le_max_right f (p + 1)) (drop_succ hcs)
    have hfound : comment (.place d p f) =
        .ok (.found (.comment (String.ofList (cs.takeWhile (· ≠ '\n')))))
          (.place d (p + ((cs.takeWhile (· ≠ '\n')).length + 2))
            (max f (p + ((cs.takeWhile (· ≠ '\n')).length + 2)))) := by
      unfold comment
      refine recognizer_found (recognizer_with h hc ((bind_ok hw).trans ?_)) rfl rfl
      exact congrArg (EStateM.Result.ok _) (place_congr (by omega) (by omega))
    rw [hfound]
    exact .of_hit h hcs rfl (Nat.succ_pos _) (Nat.le_refl _) none
  · have hr : Token.comment (text.drop p) = .miss 1 :=
      Token.comment_eq_miss (by rwa [List.head?_drop])
    unfold comment
    rw [recognizer_without ';' _ h hc]
    exact .of_miss h rfl hr

theorem text_agree (h : p ≤ f) :
    Agree d p (Buffered.text (.place d p f))
      (((d.cursor p f).attempt Token.text).map some) := by
  by_cases hc : text[p]? = some '"'
  · obtain ⟨cs, hcs⟩ := exists_drop_eq_cons hc
    have hl := literal_place (d := d) (Nat.le_max_right f (p + 1)) (drop_succ hcs)
    rcases hb : Token.textBody cs with _ | ⟨value, width⟩
    · have ht : Token.text ('"' :: cs) = .broken .unterminatedText (cs.length + 2) := by
        simp only [Token.text, hb]
      rw [hb] at hl
      have hfailed : Buffered.text (.place d p f) =
          raise .unterminatedText
            (.place d (p + (cs.length + 2)) (max f (p + (cs.length + 2)))) := by
        unfold Buffered.text
        refine (recognizer_error (recognizer_with h hc (bind_error hl))).trans ?_
        exact congrArg (raise .unterminatedText) (place_congr (by omega) (by omega))
      rw [hfailed]
      exact .of_broken h hcs ht
    · have ht : Token.text ('"' :: cs) =
          .hit (.form (.text (String.ofList value))) (width + 1) (width + 1) := by
        simp only [Token.text, hb]
      rw [hb] at hl
      have hfound : Buffered.text (.place d p f) =
          .ok (.found (.form (.text (String.ofList value))))
            (.place d (p + (width + 1)) (max f (p + (width + 1)))) := by
        unfold Buffered.text
        refine recognizer_found (recognizer_with h hc ((bind_ok hl).trans ?_)) rfl rfl
        exact congrArg (EStateM.Result.ok _) (place_congr (by omega) (by omega))
      rw [hfound]
      exact .of_hit h hcs ht (Nat.succ_pos _) (Nat.le_refl _) none
  · have hr : Token.text (text.drop p) = .miss 1 :=
      Token.text_eq_miss (by rwa [List.head?_drop])
    unfold Buffered.text
    rw [recognizer_without '"' _ h hc]
    exact .of_miss h rfl hr

theorem symbol_agree (h : p ≤ f) :
    Agree d p (symbol (.place d p f))
      (((d.cursor p f).attempt Token.symbol).map some) := by
  obtain ⟨cs, hcs⟩ : ∃ cs, text.drop p = cs := ⟨_, rfl⟩
  have hw := takeWhile_place (d := d) Token.isSymbolic h hcs
  have hr : Token.symbol cs = if (cs.takeWhile Token.isSymbolic).isEmpty then .miss 1
      else .hit (.form (.symbol (String.ofList (cs.takeWhile Token.isSymbolic))))
        (cs.takeWhile Token.isSymbolic).length ((cs.takeWhile Token.isSymbolic).length + 1) := rfl
  generalize cs.takeWhile Token.isSymbolic = name at hw hr
  unfold symbol
  by_cases hn : name.isEmpty
  · obtain rfl := List.isEmpty_iff.1 hn
    exact .of_nothing h hcs hr (bind_ok hw)
  · rw [if_neg hn] at hr
    refine .of_foundBefore h hcs hr (Token.length_pos_of_not_isEmpty hn) ((bind_ok hw).trans ?_)
    dsimp only
    rw [if_neg hn]
    rfl

theorem integer_agree (h : p ≤ f) :
    Agree d p (integer (.place d p f))
      (((d.cursor p f).attempt Token.integer).map some) := by
  obtain ⟨cs, hcs⟩ : ∃ cs, text.drop p = cs := ⟨_, rfl⟩
  have hn := numeral_place (d := d) h hcs
  have hw := Token.width_signedDigits cs
  have hr : Token.integer cs = if (Token.signedDigits cs).digits.isEmpty ||
      !Token.endsNumber (Token.signedDigits cs).rest.head? then
        .miss ((Token.signedDigits cs).width + 1)
      else .hit (.form (.int (Decimal.signed (Token.signedDigits cs).negative
          (Decimal.digitsValue (Token.signedDigits cs).digits))))
        (Token.signedDigits cs).width ((Token.signedDigits cs).width + 1) := rfl
  generalize Token.signedDigits cs = n at hn hw hr
  unfold integer
  by_cases hd : n.digits.isEmpty
  · rw [if_pos hd] at hn
    exact .of_nothing h hcs (hr.trans (if_pos (by simp [hd]))) (bind_ok hn)
  rw [if_neg hd] at hn
  by_cases he : Token.endsNumber n.rest.head?
  · have hpos := Token.length_pos_of_not_isEmpty hd
    refine .of_foundBefore h hcs (hr.trans (if_neg (by simp [hd, he]))) (by omega)
      ((bind_ok hn).trans ?_)
    dsimp only
    rw [if_pos he]
    rfl
  · refine .of_nothing h hcs (hr.trans (if_pos (by simp [he]))) (q := p + n.width + 1)
      ((bind_ok hn).trans ?_)
    dsimp only
    rw [if_neg he]
    rfl

theorem rest_signedDigits (cs : List Char) :
    (Token.signedDigits cs).rest = cs.drop (Token.signedDigits cs).width := by
  unfold Token.signedDigits
  split
  · rw [Token.signedDigits.unsigned, Nat.add_comm, List.drop_succ_cons]
  · rw [Token.signedDigits.unsigned, Nat.add_comm, List.drop_succ_cons]
  · rw [Token.signedDigits.unsigned, Nat.zero_add]

theorem float_agree (h : p ≤ f) :
    Agree d p (float (.place d p f))
      (((d.cursor p f).attempt Token.float).map some) := by
  obtain ⟨cs, hcs⟩ : ∃ cs, text.drop p = cs := ⟨_, rfl⟩
  have hn := numeral_place (d := d) h hcs
  have hw := Token.width_signedDigits cs
  have hrest := rest_signedDigits cs
  obtain ⟨n, hs⟩ : ∃ n, Token.signedDigits cs = n := ⟨_, rfl⟩
  rw [hs] at hn hw hrest
  unfold float
  by_cases hd : n.digits.isEmpty
  · rw [if_pos hd] at hn
    exact .of_nothing h hcs (Token.float_eq_miss hs (.inl (List.isEmpty_iff.1 hd))) (bind_ok hn)
  rw [if_neg hd] at hn
  by_cases hpoint : n.rest.head? = some '.'
  · -- The point has been fetched with the digits before it; those behind it go on from there.
    obtain ⟨more, hmore⟩ := List.head?_eq_some_iff.1 hpoint
    obtain ⟨fraction, tail, rfl, hfraction, htail⟩ := Token.run_cases Char.isDigit more
    have hdrop : text.drop (p + n.width + 1) = fraction ++ tail := by
      apply drop_succ (c := '.')
      rw [← List.drop_drop, hcs, ← hrest, hmore]
    have ht := takeWhile_place (d := d) Char.isDigit (Nat.le_max_right f (p + n.width + 1)) hdrop
    have hmax : max (max f (p + n.width + 1)) (p + n.width + 1 + fraction.length + 1) =
        max f (p + (n.width + 1 + fraction.length + 1)) := by omega
    have hadd : p + n.width + 1 + fraction.length + 1 =
        p + (n.width + 1 + fraction.length) + 1 := by omega
    rw [Token.takeWhile_run hfraction htail, Token.dropWhile_run hfraction htail, hmax, hadd] at ht
    have hr := Token.float_point hs (mt List.isEmpty_iff.2 hd) hmore hfraction htail
    by_cases he : fraction.isEmpty || !Token.endsNumber tail.head?
    · rw [if_pos he] at hr
      refine .of_nothing h hcs hr (q := p + (n.width + 1 + fraction.length) + 1)
        ((bind_ok hn).trans ?_)
      dsimp only
      rw [if_pos hpoint]
      refine (bind_ok ht).trans ?_
      dsimp only
      rw [if_pos he]
      rfl
    · rw [if_neg he] at hr
      refine .of_foundBefore h hcs hr (by omega) ((bind_ok hn).trans ?_)
      dsimp only
      rw [if_pos hpoint]
      refine (bind_ok ht).trans ?_
      dsimp only
      rw [if_neg he]
      rfl
  · refine .of_nothing h hcs (Token.float_eq_miss hs (.inr hpoint)) (q := p + n.width + 1)
      ((bind_ok hn).trans ?_)
    dsimp only
    rw [if_neg hpoint]
    rfl

end
end StackLang.Buffered
