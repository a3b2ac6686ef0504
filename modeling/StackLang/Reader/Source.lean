namespace StackLang

/-- Where a reader has its characters from, one after the other. Behind the last one it is given the
end of the text, `none`, as often as it asks. -/
class CharSource (σ : Type) where
  next : σ → Option Char × σ
  /-- The characters still to come. -/
  remaining : σ → List Char
  next_fst (s : σ) : (next s).1 = (remaining s).head?
  remaining_next (s : σ) : remaining (next s).2 = (remaining s).tail

instance : CharSource (List Char) where
  next cs := (cs.head?, cs.tail)
  remaining cs := cs
  next_fst _ := rfl
  remaining_next _ := rfl

end StackLang
