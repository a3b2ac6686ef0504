import StackLang.Decimal.Numeral
import StackLang.Form
import StackLang.Reader.SyntaxError

namespace StackLang

/-- What a recognizer comes to at the front of a text, with how many characters it takes and how
many it has to examine, the end of the text counting as one character. -/
inductive Attempt (α : Type) where
  | hit (value : α) (taken examined : Nat)
  | miss (examined : Nat)
  /-- A literal without an end. All of the text is taken, and its end. -/
  | broken (fault : SyntaxFault) (taken : Nat)

namespace Attempt

/-- The second recognizer starts over at the same place if the first one misses. -/
def orElse {α : Type} : Attempt α → (Unit → Attempt α) → Attempt α
  | .miss n, other =>
    match other () with
    | .hit value taken examined => .hit value taken (max n examined)
    | .miss examined => .miss (max n examined)
    | .broken fault taken => .broken fault taken
  | first, _ => first

instance {α : Type} : OrElse (Attempt α) := ⟨orElse⟩

def Proper {α : Type} (a : Attempt α) : Prop :=
  ∀ value taken examined, a = .hit value taken examined → 0 < taken

theorem Proper.hit {α : Type} {value : α} {taken examined : Nat} (h : 0 < taken) :
    (Attempt.hit value taken examined).Proper := by
  rintro _ _ _ ⟨⟩
  exact h

theorem Proper.miss {α : Type} (n : Nat) : (Attempt.miss n : Attempt α).Proper := by
  rintro _ _ _ ⟨⟩

theorem Proper.broken {α : Type} (fault : SyntaxFault) (n : Nat) :
    (Attempt.broken fault n : Attempt α).Proper := by
  rintro _ _ _ ⟨⟩

theorem Proper.orElse {α : Type} {a b : Attempt α} (ha : a.Proper) (hb : b.Proper) :
    (a <|> b).Proper := by
  cases a with
  | hit => exact ha
  | broken => exact ha
  | miss n =>
    cases b with
    | hit value taken examined => exact .hit (hb _ _ _ rfl)
    | miss m => exact .miss _
    | broken fault m => exact .broken _ _

end Attempt

namespace Token

def isBlank (c : Char) : Bool :=
  [' ', '\t', '\n', '\r', '\x0b', '\x0c'].contains c

def punctuation : List Char :=
  ['!', '#', '$', '%', '&', '*', '+', '-', '/', ':', '<', '=', '>', '?', '@', '\\', '^', '_', '~',
   '.']

/-- Characters that symbols are made of. -/
def isSymbolic (c : Char) : Bool :=
  c.isAlphanum || punctuation.contains c

/-- What may follow a number, `none` being the end of the text. -/
def endsNumber : Option Char → Bool
  | none => true
  | some c => c == '(' || c == ')' || isBlank c

def blankCount (cs : List Char) : Nat :=
  (cs.takeWhile isBlank).length

def exactly (c : Option Char) (cs : List Char) : Attempt Unit :=
  if cs.head? = c then .hit () 1 1 else .miss 1

/-- A semicolon, and all up to the end of the line or of the text, which is taken too. -/
def comment : List Char → Attempt Item
  | ';' :: cs =>
    let body := cs.takeWhile (· ≠ '\n')
    let width := body.length + 2
    .hit (.comment (String.ofList body)) width width
  | _ => .miss 1

/-- The value of a text literal after its opening quote, and the number of characters up to and
with the closing one. A backslash stands for the character after it. -/
def textBody : List Char → Option (List Char × Nat)
  | [] => none
  | '"' :: _ => some ([], 1)
  | '\\' :: [] => none
  | '\\' :: c :: cs => (textBody cs).map fun (value, width) => (c :: value, width + 2)
  | c :: cs => (textBody cs).map fun (value, width) => (c :: value, width + 1)

def text : List Char → Attempt Item
  | '"' :: cs =>
    match textBody cs with
    | some (value, width) => .hit (.form (.text (String.ofList value))) (width + 1) (width + 1)
    | none => .broken .unterminatedText (cs.length + 2)
  | _ => .miss 1

structure SignedDigits where
  negative : Bool
  digits : List Char
  /-- How many characters the sign and the digits are. -/
  width : Nat
  rest : List Char

def signedDigits : List Char → SignedDigits
  | '+' :: cs => unsigned false 1 cs
  | '-' :: cs => unsigned true 1 cs
  | cs => unsigned false 0 cs
where
  unsigned (negative : Bool) (signWidth : Nat) (cs : List Char) : SignedDigits :=
    let digits := cs.takeWhile Char.isDigit
    ⟨negative, digits, signWidth + digits.length, cs.drop digits.length⟩

def integer (cs : List Char) : Attempt Item :=
  let n := signedDigits cs
  if n.digits.isEmpty || !endsNumber n.rest.head? then .miss (n.width + 1)
  else
    let value := Decimal.signed n.negative (Decimal.digitsValue n.digits)
    .hit (.form (.int value)) n.width (n.width + 1)

def float (cs : List Char) : Attempt Item :=
  let n := signedDigits cs
  match n.digits, n.rest with
  | _ :: _, '.' :: cs =>
    let fraction := cs.takeWhile Char.isDigit
    let width := n.width + 1 + fraction.length
    if fraction.isEmpty || !endsNumber (cs.drop fraction.length).head? then .miss (width + 1)
    else
      let value := Binary64.ofRatio n.negative (Decimal.digitsValue (n.digits ++ fraction))
        (Nat.pow 10 fraction.length)
      .hit (.form (.float value)) width (width + 1)
  | _, _ => .miss (n.width + 1)

def symbol (cs : List Char) : Attempt Item :=
  let name := cs.takeWhile isSymbolic
  if name.isEmpty then .miss 1
  else .hit (.form (.symbol (String.ofList name))) name.length (name.length + 1)

def any (cs : List Char) : Attempt Item :=
  comment cs <|> text cs <|> float cs <|> integer cs <|> symbol cs

theorem drop_blankCount (cs : List Char) : cs.drop (blankCount cs) = cs.dropWhile isBlank := by
  induction cs with
  | nil => rfl
  | cons c cs ih => cases hc : isBlank c <;> simp_all [blankCount]

theorem blankCount_drop_blankCount (cs : List Char) : blankCount (cs.drop (blankCount cs)) = 0 := by
  rw [drop_blankCount, blankCount, List.length_eq_zero_iff]
  have hc := List.head?_dropWhile_not isBlank cs
  cases hd : cs.dropWhile isBlank with
  | nil => rfl
  | cons c ds => simp_all

theorem length_pos_of_not_isEmpty {cs : List Char} (h : ¬cs.isEmpty) : 0 < cs.length :=
  List.length_pos_iff.2 (by simpa using h)

theorem width_signedDigits (cs : List Char) :
    (signedDigits cs).digits.length ≤ (signedDigits cs).width := by
  unfold signedDigits
  split <;> simp [signedDigits.unsigned]

theorem comment_proper (cs : List Char) : (comment cs).Proper := by
  unfold comment
  split
  · exact .hit (by omega)
  · exact .miss _

theorem text_proper (cs : List Char) : (text cs).Proper := by
  unfold text
  split
  · split
    · exact .hit (by omega)
    · exact .broken _ _
  · exact .miss _

theorem integer_proper (cs : List Char) : (integer cs).Proper := by
  unfold integer
  have hw := width_signedDigits cs
  dsimp only
  split
  · exact .miss _
  · next h =>
    have hd : 0 < (signedDigits cs).digits.length := length_pos_of_not_isEmpty (by simp_all)
    exact .hit (by omega)

theorem float_proper (cs : List Char) : (float cs).Proper := by
  unfold float
  dsimp only
  split
  · split
    · exact .miss _
    · exact .hit (by omega)
  · exact .miss _

theorem symbol_proper (cs : List Char) : (symbol cs).Proper := by
  unfold symbol
  dsimp only
  split
  · exact .miss _
  · next h => exact .hit (length_pos_of_not_isEmpty h)

theorem any_proper (cs : List Char) : (any cs).Proper :=
  .orElse (comment_proper cs) <| .orElse (text_proper cs) <| .orElse (float_proper cs) <|
    .orElse (integer_proper cs) (symbol_proper cs)

end Token
end StackLang
