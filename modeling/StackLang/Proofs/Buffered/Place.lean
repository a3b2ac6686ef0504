import Mathlib.Logic.Function.Iterate
import StackLang.Proofs.Reader.LineEnd
import StackLang.Reader.Buffered

namespace StackLang

namespace CharSource

variable {σ : Type} [CharSource σ]

/-- What is left of a source when `n` characters have been asked for. -/
def skip (s : σ) (n : Nat) : σ := Nat.iterate (fun s => (next s).2) n s

theorem skip_succ (s : σ) (n : Nat) : skip s (n + 1) = (next (skip s n)).2 :=
  Function.iterate_succ_apply' _ n s

theorem remaining_skip (s : σ) (n : Nat) : remaining (skip s n) = (remaining s).drop n := by
  induction n with
  | zero => rfl
  | succ n ih => rw [skip_succ, remaining_next, ih, List.tail_drop]

end CharSource

namespace Buffered

/-- The first characters of a text; behind its end each of them is the end again. -/
def characters (text : List Char) (n : Nat) : List (Option Char) := (List.range n).map (text[·]?)

theorem characters_eq (text : List Char) (n : Nat) :
    characters text n = (text.take n).map some ++ List.replicate (n - text.length) none := by
  refine List.ext_getElem? fun i => ?_
  simp only [characters, List.getElem?_map, List.getElem?_append, List.length_map,
    List.length_take, List.getElem?_take, List.getElem?_replicate]
  by_cases hi : i < n
  · by_cases hl : i < text.length
    · have hm : i < min n text.length := Nat.lt_min.2 ⟨hi, hl⟩
      simp [hi, hl, hm]
    · have hm : ¬i < min n text.length := by omega
      have hr : i - min n text.length < n - text.length := by omega
      simp [hi, hl, hr, hm]
  · have hm : ¬i < min n text.length := by omega
    have hr : ¬i - min n text.length < n - text.length := by omega
    simp [hi, hr, hm]

theorem characters_succ (text : List Char) (n : Nat) :
    characters text (n + 1) = characters text n ++ [text[n]?] := by
  simp [characters, List.range_succ]

/-- A source that has delivered the first `base` characters of a text. -/
structure Feed (σ : Type) [CharSource σ] (text : List Char) where
  base : Nat
  source : σ
  remaining_eq : CharSource.remaining source = text.drop base

section
variable {σ : Type} [CharSource σ] {text : List Char}

def Feed.start (source : σ) : Feed σ (CharSource.remaining source) := ⟨0, source, rfl⟩

/-- The state at a position of the text when so many characters have been fetched, if not more. The
buffer, the line and what the source has still to deliver follow from these numbers. -/
def Reader.place (d : Feed σ text) (position fetched : Nat) : Reader σ where
  line := 1 + (text.take (max d.base fetched)).count '\n'
  buffer := characters text (max d.base fetched)
  position := position
  source := CharSource.skip d.source (max d.base fetched - d.base)

def Feed.cursor (d : Feed σ text) (position fetched : Nat) : Cursor :=
  .place text position (max d.base fetched)

variable {d : Feed σ text} {p f : Nat}

theorem fresh_eq_place (source : σ) : Reader.fresh source = .place (.start source) 0 0 := rfl

theorem place_congr {q g : Nat} (hp : p = q) (hf : f = g) :
    Reader.place d p f = .place d q g := by
  rw [hp, hf]

theorem place_eq_of_max {g : Nat} (h : max d.base f = max d.base g) :
    Reader.place d p f = .place d p g := by
  rw [Reader.place, h, Reader.place]

theorem place_base (d : Feed σ text) (p : Nat) : Reader.place d p d.base =
    ⟨⟨1 + (text.take d.base).count '\n', characters text d.base, p⟩, d.source⟩ := by
  rw [Reader.place, Nat.max_self, Nat.sub_self]
  rfl

theorem length_buffer_place (d : Feed σ text) (p f : Nat) :
    (Reader.place d p f).buffer.length = max d.base f := by
  simp [Reader.place, characters]

theorem getElem?_buffer_place (h : p < f) : (Reader.place d p f).buffer[p]? = some text[p]? := by
  have hp : p < max d.base f := Nat.lt_of_lt_of_le h (Nat.le_max_right _ _)
  simp [Reader.place, characters, hp]

theorem Feed.remaining_skip (d : Feed σ text) {n : Nat} (h : d.base ≤ n) :
    CharSource.remaining (CharSource.skip d.source (n - d.base)) = text.drop n := by
  rw [CharSource.remaining_skip, d.remaining_eq, List.drop_drop, Nat.add_sub_cancel' h]

def Feed.advance (d : Feed σ text) (fetched : Nat) : Feed σ text where
  base := max d.base fetched
  source := CharSource.skip d.source (max d.base fetched - d.base)
  remaining_eq := d.remaining_skip (Nat.le_max_left _ _)

theorem place_advance (d : Feed σ text) (p f : Nat) :
    Reader.place d p f = .place (d.advance f) p (d.advance f).base := by
  rw [place_base]
  rfl

theorem unread_place (h : p ≤ f) : (Reader.place d p f).unread = text.length - p := by
  obtain ⟨n, hn⟩ : ∃ n, max d.base f = n := ⟨_, rfl⟩
  have hsome (cs : List Char) : (cs.map some).countP Option.isSome = cs.length := by simp
  have hbuffer : ((characters text n).drop p).countP Option.isSome = min n text.length - p := by
    rw [characters_eq, List.drop_append, List.countP_append, ← List.map_drop, hsome]
    simp
  have hunread : (Reader.place d p f).unread = (min n text.length - p) + (text.length - n) := by
    rw [← hbuffer, ← List.length_drop, ← d.remaining_skip (hn ▸ Nat.le_max_left _ _), ← hn]
    rfl
  omega

theorem fetch_place (hf : d.base ≤ f) :
    (Reader.place d p f).fetch = .place d p (f + 1) := by
  have htake : text.take (f + 1) = text.take f ++ text[f]?.toList := List.take_add_one
  have hc : (CharSource.next (CharSource.skip d.source (f - d.base))).1 = text[f]? := by
    rw [CharSource.next_fst, d.remaining_skip hf, List.head?_drop]
  have hsource := CharSource.skip_succ d.source (f - d.base)
  rw [← Nat.sub_add_comm hf] at hsource
  simp only [Reader.fetch, Reader.place, Nat.max_eq_right hf,
    Nat.max_eq_right (Nat.le_succ_of_le hf), hc, hsource, characters_succ, htake, List.count_append]
  congr 2
  cases text[f]? with
  | none => rfl
  | some c => by_cases hn : c = '\n' <;> simp [hn, Nat.add_assoc]

theorem supply_place (h : p ≤ f) :
    (Reader.place d p f).supply = .place d p (max f (p + 1)) := by
  have hlt (f : Nat) : (Reader.place d p f).position < (Reader.place d p f).buffer.length ↔
      p < max d.base f := by
    rw [length_buffer_place]
    exact Int.ofNat_lt
  by_cases hp : p < max d.base f
  · rw [Reader.supply, if_pos ((hlt f).2 hp)]
    exact place_eq_of_max (by omega)
  · have hf : d.base ≤ f := by omega
    have hnext : p < max d.base (f + 1) := by omega
    rw [Reader.supply, if_neg (mt (hlt f).1 hp), fetch_place hf, Reader.supply,
      if_pos ((hlt (f + 1)).2 hnext)]
    exact place_congr rfl (by omega)

theorem next_place (h : p ≤ f) :
    next (Reader.place d p f) = .ok text[p]? (.place d (p + 1) (max f (p + 1))) := by
  have hp : (0 : Int) ≤ (Reader.place d p (max f (p + 1))).position := Int.natCast_nonneg p
  have hc : (Reader.place d p (max f (p + 1))).buffer[
      (Reader.place d p (max f (p + 1))).position.toNat]? = some text[p]? :=
    getElem?_buffer_place (Nat.lt_of_lt_of_le (Nat.lt_succ_self p) (Nat.le_max_right _ _))
  unfold next
  dsimp only
  rw [supply_place h, if_pos hp, hc]
  rfl

theorem getElem?_of_drop {cs : List Char} (h : text.drop p = cs) : text[p]? = cs.head? := by
  rw [← h, List.head?_drop]

theorem drop_succ {c : Char} {cs : List Char} (h : text.drop p = c :: cs) :
    text.drop (p + 1) = cs := by
  rw [← List.tail_drop, h, List.tail_cons]

theorem takeWhile_place (q : Char → Bool) (h : p ≤ f) {cs : List Char} (hcs : text.drop p = cs) :
    takeWhile q (Reader.place d p f) =
      .ok (cs.takeWhile q, (cs.dropWhile q).head?)
        (.place d (p + (cs.takeWhile q).length + 1)
          (max f (p + (cs.takeWhile q).length + 1))) := by
  induction cs generalizing p f with
  | nil =>
    rw [takeWhile, next_place h, getElem?_of_drop hcs]
    rfl
  | cons c cs ih =>
    rw [takeWhile, next_place h, getElem?_of_drop hcs]
    dsimp only [List.head?_cons]
    cases hc : q c with
    | false => simp [hc]
    | true =>
      rw [if_pos rfl, ih (Nat.le_max_right _ _) (drop_succ hcs), List.takeWhile_cons_of_pos hc,
        List.dropWhile_cons_of_pos hc, List.length_cons]
      exact congrArg (EStateM.Result.ok _) (place_congr (by omega) (by omega))

theorem literal_place (h : p ≤ f) {cs : List Char} (hcs : text.drop p = cs) :
    literal (Reader.place d p f) = match Token.textBody cs with
      | some (value, width) => .ok value (.place d (p + width) (max f (p + width)))
      | none =>
        raise .unterminatedText (.place d (p + cs.length + 1) (max f (p + cs.length + 1))) := by
  -- Each call takes one character, and the one behind a backslash as well.
  fun_induction Token.textBody cs generalizing p f with
  | case1 =>
    rw [literal, next_place h, getElem?_of_drop hcs]
    rfl
  | case2 cs =>
    rw [literal, next_place h, getElem?_of_drop hcs]
    rfl
  | case3 =>
    rw [literal, next_place h, getElem?_of_drop hcs]
    dsimp only [List.head?_cons]
    rw [if_neg (by decide), if_pos rfl, next_place (Nat.le_max_right _ _),
      getElem?_of_drop (drop_succ hcs)]
    exact congrArg (raise .unterminatedText) (place_congr rfl
      (by simp only [List.length_singleton]; omega))
  | case4 c cs ih =>
    rw [literal, next_place h, getElem?_of_drop hcs]
    dsimp only [List.head?_cons]
    rw [if_neg (by decide), if_pos rfl, next_place (Nat.le_max_right _ _),
      getElem?_of_drop (drop_succ hcs)]
    dsimp only [List.head?_cons]
    rw [ih (Nat.le_max_right _ _) (drop_succ (drop_succ hcs))]
    rcases Token.textBody cs with _ | ⟨value, width⟩
    · exact congrArg (raise .unterminatedText) (place_congr (by simp only [List.length_cons]; omega)
        (by simp only [List.length_cons]; omega))
    · exact congrArg (EStateM.Result.ok _) (place_congr (by omega) (by omega))
  | case5 c cs hq hb hn ih =>
    rw [literal, next_place h, getElem?_of_drop hcs]
    dsimp only [List.head?_cons]
    rw [if_neg hq, if_neg (Token.ne_backslash hb hn), ih (Nat.le_max_right _ _) (drop_succ hcs)]
    rcases Token.textBody cs with _ | ⟨value, width⟩
    · exact congrArg (raise .unterminatedText) (place_congr (by simp only [List.length_cons]; omega)
        (by simp only [List.length_cons]; omega))
    · exact congrArg (EStateM.Result.ok _) (place_congr (by omega) (by omega))

end
end Buffered
end StackLang
