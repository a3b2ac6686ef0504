import StackLang.Reader.Source
import StackLang.Reader.Token

namespace StackLang.Buffered

/-- What the recognizers share. The end of the text is kept in the buffer as well, as often as it
has been fetched. -/
structure Shared where
  line : Nat
  buffer : List (Option Char)
  position : Int

def Shared.fresh : Shared := ⟨1, [], 0⟩

structure Reader (σ : Type) extends Shared where
  source : σ

def Reader.fresh {σ : Type} (source : σ) : Reader σ := ⟨.fresh, source⟩

inductive Failure where
  | error (e : SyntaxError)
  /-- A position in front of the buffer. -/
  | outOfRange
  /-- A loop that would go round without having come any further. -/
  | standstill

/-- The fault in the text, if it is one. -/
def Failure.syntaxError? : Failure → Option SyntaxError
  | .error e => some e
  | .outOfRange | .standstill => none

abbrev ReaderM (σ : Type) := EStateM Failure (Reader σ)

abbrev Result (σ α : Type) := EStateM.Result Failure (Reader σ) α

variable {σ : Type} [CharSource σ]

namespace Reader

def fetch (r : Reader σ) : Reader σ :=
  let (c, source) := CharSource.next r.source
  { r with
    line := if c = some '\n' then r.line + 1 else r.line
    buffer := r.buffer ++ [c]
    source }

theorem length_buffer_fetch (r : Reader σ) : r.fetch.buffer.length = r.buffer.length + 1 :=
  List.length_append

theorem position_fetch (r : Reader σ) : r.fetch.position = r.position := rfl

def supply (r : Reader σ) : Reader σ :=
  if r.position < r.buffer.length then r else r.fetch.supply
termination_by (r.position + 1 - r.buffer.length).toNat
decreasing_by
  rw [position_fetch, length_buffer_fetch]
  omega

/-- How many characters are still to be taken, the end of the text not counting as one. -/
def unread (r : Reader σ) : Nat :=
  (r.buffer.drop r.position.toNat).countP Option.isSome + (CharSource.remaining r.source).length

theorem unread_fetch_le (r : Reader σ) : r.fetch.unread ≤ r.unread := by
  have hfetch : r.fetch.unread =
      ((r.buffer ++ [(CharSource.next r.source).1]).drop r.position.toNat).countP Option.isSome +
        (CharSource.remaining (CharSource.next r.source).2).length := rfl
  have hlast := (List.drop_sublist (r.position.toNat - r.buffer.length)
    [(CharSource.next r.source).1]).countP_le (p := Option.isSome)
  rw [hfetch, List.drop_append, List.countP_append, unread, CharSource.remaining_next]
  rw [CharSource.next_fst] at hlast ⊢
  cases hs : CharSource.remaining r.source with
  | nil =>
    rw [hs] at hlast
    exact Nat.add_le_add_right (Nat.add_le_add_left hlast _) _
  | cons c cs =>
    rw [hs] at hlast
    simp only [List.head?_cons, List.countP_singleton, Option.isSome_some, if_true,
      List.tail_cons, List.length_cons] at hlast ⊢
    omega

theorem supply_spec (r : Reader σ) :
    r.supply.unread ≤ r.unread ∧ r.supply.position = r.position := by
  fun_induction supply r with
  | case1 r h => exact ⟨Nat.le_refl _, rfl⟩
  | case2 r h ih =>
    exact ⟨Nat.le_trans ih.1 r.unread_fetch_le, ih.2.trans r.position_fetch⟩

end Reader

def next : ReaderM σ (Option Char) := fun r =>
  let r := r.supply
  if 0 ≤ r.position then
    match r.buffer[r.position.toNat]? with
    | some c => .ok c { r with position := r.position + 1 }
    | none => .error .outOfRange r
  else .error .outOfRange r

theorem unread_lt_of_next {r t : Reader σ} {c : Char} (h : next r = .ok (some c) t) :
    t.unread < r.unread := by
  have hle := r.supply_spec.1
  unfold next at h
  dsimp only at h
  split at h
  · next hp =>
    split at h
    · next d hc =>
      obtain ⟨hl, hc⟩ := List.getElem?_eq_some_iff.1 hc
      cases h
      have hd := List.drop_eq_getElem_cons hl
      have hn : (r.supply.position + 1).toNat = r.supply.position.toNat + 1 := by omega
      refine Nat.lt_of_lt_of_le ?_ hle
      simp only [Reader.unread, hn, hd, hc, List.countP_cons, Option.isSome_some, if_true]
      omega
    · cases h
  · cases h

/-- Reports a fault on the line fetched last. -/
def raise {α : Type} (fault : SyntaxFault) : ReaderM σ α := fun r =>
  .error (.error ⟨fault, r.line⟩) r

/-- Takes characters as long as they pass a test, and the one behind them. -/
def takeWhile (p : Char → Bool) : ReaderM σ (List Char × Option Char) := fun r =>
  match _h : next r with
  | .ok (some c) t =>
    if p c then
      match takeWhile p t with
      | .ok (cs, behind) u => .ok (c :: cs, behind) u
      | .error e u => .error e u
    else .ok ([], some c) t
  | .ok none t => .ok ([], none) t
  | .error e t => .error e t
termination_by r => r.unread
decreasing_by exact unread_lt_of_next _h

def literal : ReaderM σ (List Char) := fun r =>
  match _h : next r with
  | .ok none t => raise .unterminatedText t
  | .ok (some c) t =>
    if c = '"' then .ok [] t
    else if c = '\\' then
      match _g : next t with
      | .ok none u => raise .unterminatedText u
      | .ok (some d) u =>
        match literal u with
        | .ok cs v => .ok (d :: cs) v
        | .error e v => .error e v
      | .error e u => .error e u
    else
      match literal t with
      | .ok cs u => .ok (c :: cs) u
      | .error e u => .error e u
  | .error e t => .error e t
termination_by r => r.unread
decreasing_by
  · exact Nat.lt_trans (unread_lt_of_next _g) (unread_lt_of_next _h)
  · exact unread_lt_of_next _h

/-- What a recognizer comes to. Blanks and single characters are no items. -/
structure Finding where
  success : Bool
  item? : Option Item
  /-- By how much the position is to be moved afterwards. -/
  adjustment? : Option Int

namespace Finding

def nothing : Finding := ⟨false, none, none⟩

def found (i : Item) : Finding := ⟨true, some i, none⟩

/-- Found by means of the character behind it. -/
def foundBefore (i : Item) : Finding := ⟨true, some i, some (-1)⟩

end Finding

def Reader.settle (r : Reader σ) (bookmark : Int) (f : Finding) : Reader σ :=
  match f.adjustment? with
  | some n => { r with position := r.position + n }
  | none => if f.success then r else { r with position := bookmark }

/-- A recognizer: whatever it takes, the position is settled when it is done. -/
def recognizer (body : ReaderM σ Finding) : ReaderM σ Finding := do
  let bookmark := (← get).position
  let f ← body
  modify (·.settle bookmark f)
  return f

def blanks : ReaderM σ Finding :=
  recognizer do
    let _ ← takeWhile Token.isBlank
    return ⟨true, none, some (-1)⟩

def lookahead (c : Option Char) : ReaderM σ Finding :=
  recognizer do
    return ⟨(← next) == c, none, none⟩

def comment : ReaderM σ Finding :=
  recognizer do
    if (← next) = some ';' then
      let (body, _) ← takeWhile (· ≠ '\n')
      return .found (.comment (String.ofList body))
    else return .nothing

/-- An optional sign and at least one digit, with the character behind them. -/
structure Numeral where
  negative : Bool
  digits : List Char
  behind : Option Char

def numeral : ReaderM σ (Option Numeral) := do
  let c ← next
  if c = some '+' ∨ c = some '-' then digitsFrom (c = some '-') (← next) else digitsFrom false c
where
  digitsFrom (negative : Bool) : Option Char → ReaderM σ (Option Numeral)
    | some c =>
      if c.isDigit then do
        let (cs, behind) ← takeWhile Char.isDigit
        return some ⟨negative, c :: cs, behind⟩
      else return none
    | none => return none

def integer : ReaderM σ Finding :=
  recognizer do
    match ← numeral with
    | some n =>
      if Token.endsNumber n.behind then
        let value := Decimal.signed n.negative (Decimal.digitsValue n.digits)
        return .foundBefore (.form (.int value))
      else return .nothing
    | none => return .nothing

def float : ReaderM σ Finding :=
  recognizer do
    match ← numeral with
    | some n =>
      if n.behind = some '.' then
        let (fraction, behind) ← takeWhile Char.isDigit
        if fraction.isEmpty || !Token.endsNumber behind then return .nothing
        else
          let value := Binary64.ofRatio n.negative (Decimal.digitsValue (n.digits ++ fraction))
            (Nat.pow 10 fraction.length)
          return .foundBefore (.form (.float value))
      else return .nothing
    | none => return .nothing

def text : ReaderM σ Finding :=
  recognizer do
    if (← next) = some '"' then
      return .found (.form (.text (String.ofList (← literal))))
    else return .nothing

def symbol : ReaderM σ Finding :=
  recognizer do
    let (name, _) ← takeWhile Token.isSymbolic
    if name.isEmpty then return .nothing
    else return .foundBefore (.form (.symbol (String.ofList name)))

/-- What the first recognizer to succeed has found. -/
def firstOf : List (ReaderM σ Finding) → ReaderM σ Finding
  | [] => return .nothing
  | p :: ps => do
    let f ← p
    if f.success then return f else firstOf ps

/-- Goes on in a reader that has come far enough. -/
def onward {α : Type} (enough : Reader σ → Prop) [DecidablePred enough]
    (k : (r : Reader σ) → enough r → Result σ α) : ReaderM σ α := fun r =>
  if h : enough r then k r h else .error .standstill r

mutual

def form (r : Reader σ) : Result σ Finding :=
  recognizer (do
    let _ ← blanks
    let f ← firstOf [comment, onward (·.unread ≤ r.unread) fun t _h => list t, text, float,
      integer, symbol]
    if f.success then return { f with adjustment? := none } else raise .invalidForm) r
termination_by (r.unread, 1)
decreasing_by exact Prod.Lex.right' _ _h Nat.zero_lt_one

def list (r : Reader σ) : Result σ Finding :=
  recognizer (do
    if (← next) = some '(' then
      let forms ← onward (·.unread < r.unread) fun t _h => items [] t
      return .found (.form (.list forms))
    else return .nothing) r
termination_by (r.unread, 0)
decreasing_by exact .left _ _ _h

/-- The forms of a list up to its end, behind those read before. Comments are left out. -/
def items (forms : List Form) (r : Reader σ) : Result σ (List Form) :=
  (do
    let _ ← blanks
    if (← lookahead (some ')')).success then return forms
    else if (← lookahead none).success then raise .unterminatedList
    else
      let f ← onward (·.unread ≤ r.unread) fun t _h => form t
      let forms := forms ++ (f.item?.bind Item.form?).toList
      onward (·.unread < r.unread) fun t _h => items forms t : ReaderM σ (List Form)) r
termination_by (r.unread, 2)
decreasing_by
  · exact Prod.Lex.right' _ _h (Nat.lt_succ_self 1)
  · exact .left _ _ _h

end

def parse : ReaderM σ (Option Item) := do
  let _ ← blanks
  if (← lookahead none).success then return none
  else return (← (form : ReaderM σ Finding)).item?

def nextForm (r : Reader σ) : Result σ (Option Form) :=
  (do
    match ← parse with
    | none => return none
    | some (.form f) => return some f
    | some (.comment _) => onward (·.unread < r.unread) fun t _h => nextForm t
    : ReaderM σ (Option Form)) r
termination_by r.unread

def load (forms : List Form) (r : Reader σ) : Result σ (List Form) :=
  (do
    match ← (nextForm : ReaderM σ (Option Form)) with
    | none => return forms
    | some f => onward (·.unread < r.unread) fun t _h => load (forms ++ [f]) t
    : ReaderM σ (List Form)) r
termination_by r.unread

/-- Reads another text, with a fresh state that is given up for the old one at the end, be that an
error or not. -/
def readText (text : List Char) : ReaderM σ (List Form) := fun r =>
  match load [] (.fresh text) with
  | .ok forms _ => .ok forms ⟨r.toShared, r.source⟩
  | .error e _ => .error e ⟨r.toShared, r.source⟩

end StackLang.Buffered
