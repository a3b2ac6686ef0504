import StackLang.Proofs.Buffered.Loading
import StackLang.Reader.Component

namespace StackLang.Buffered

section
variable {σ : Type} [CharSource σ]

/-- What can be asked of a reader: to read a part at the place where it is, or another text. -/
inductive Call where
  | component (which : Component)
  | nested (text : List Char)

inductive Reply where
  | finding (f : Finding)
  | next (item? : Option Item)
  | forms (forms : List Form)
  | raised (e : SyntaxError)

namespace Call

def body : Call → ReaderM σ Reply
  | .component .blanks => .finding <$> blanks
  | .component (.lookahead c) => .finding <$> lookahead c
  | .component .comment => .finding <$> comment
  | .component .text => .finding <$> text
  | .component .float => .finding <$> float
  | .component .integer => .finding <$> integer
  | .component .symbol => .finding <$> symbol
  | .component .list => .finding <$> (list : ReaderM σ Finding)
  | .component .item => .finding <$> (form : ReaderM σ Finding)
  | .component .next => .next <$> parse
  | .nested text => .forms <$> readText text

/-- The reply to a call, which may be an error, and the reader as it is left. Nothing else may
happen. -/
def perform (call : Call) (r : Reader σ) : Option (Reply × Reader σ) :=
  match call.body r with
  | .ok reply t => some (reply, t)
  | .error (.error e) t => some (.raised e, t)
  | .error _ _ => none

end Call

/-- The reader that is left when calls have been made one after the other. -/
def Reader.after (r : Reader σ) (calls : List Call) : Option (Reader σ) :=
  calls.foldlM (fun r call => (call.perform r).map (·.2)) r

end

/-- What holds of a reader of a text at any time. -/
structure Reader.Consistent (text : List Char) (r : Reader (List Char)) : Prop where
  position_nonneg : 0 ≤ r.position
  position_le : r.position ≤ r.buffer.length
  /-- The characters fetched, continued by the end of the text once it has been reached. -/
  buffer_eq : r.buffer = (text.take r.buffer.length).map some ++
    List.replicate (r.buffer.length - text.length) none
  line_eq : r.line = 1 + r.buffer.count (some '\n')
  source_eq : r.source = text.drop r.buffer.length

/-- The place of a reader: what it has taken back is ahead again, and so is what the source has
still to deliver. -/
def Reader.cursor (r : Reader (List Char)) : Cursor where
  ahead := (r.buffer.drop r.position.toNat).filterMap id ++ r.source
  position := r.position.toNat
  fetched := r.buffer.length
  line := r.line

def Feed.ofText (text : List Char) : Feed (List Char) text := .start text

section
variable {text : List Char} {p f : Nat}

theorem count_characters (text : List Char) (n : Nat) :
    (characters text n).count (some '\n') = (text.take n).count '\n' := by
  rw [characters_eq, List.count_append, List.count_replicate, if_neg (by decide), Nat.add_zero]
  exact List.countP_map

theorem place_ofText (text : List Char) (p f : Nat) : Reader.place (.ofText text) p f =
    ⟨⟨1 + (text.take f).count '\n', characters text f, p⟩, text.drop f⟩ := by
  have hskip : CharSource.skip text f = text.drop f := CharSource.remaining_skip text f
  have hmax : max (Feed.ofText text).base f = f := Nat.zero_max f
  rw [Reader.place, hmax, ← hskip]
  rfl

theorem cursor_ofText (text : List Char) (p f : Nat) :
    (Feed.ofText text).cursor p f = .place text p f :=
  congrArg (Cursor.place text p) (Nat.zero_max f)

theorem consistent_place (h : p ≤ f) : (Reader.place (.ofText text) p f).Consistent text := by
  have hlength : (characters text f).length = f := by simp [characters]
  rw [place_ofText]
  constructor
  · exact Int.natCast_nonneg p
  · dsimp only
    rw [hlength]
    exact Int.ofNat_le.2 h
  · dsimp only
    rw [hlength]
    exact characters_eq text f
  · exact congrArg (1 + ·) (count_characters text f).symm
  · dsimp only
    rw [hlength]

theorem Reader.Consistent.eq_place {r : Reader (List Char)} (h : r.Consistent text) :
    r = .place (.ofText text) r.position.toNat r.buffer.length := by
  have hbuffer : characters text r.buffer.length = r.buffer :=
    (characters_eq text r.buffer.length).trans h.buffer_eq.symm
  have hline : r.line = 1 + (text.take r.buffer.length).count '\n' := by
    rw [h.line_eq, ← count_characters, hbuffer]
  have hposition := Int.toNat_of_nonneg h.position_nonneg
  rw [place_ofText, hbuffer, hposition, ← hline, ← h.source_eq]

theorem cursor_place (h : p ≤ f) :
    (Reader.place (.ofText text) p f).cursor = .place text p f := by
  have hback : ((characters text f).drop p).filterMap id = (text.drop p).take (f - p) := by
    rw [characters_eq, List.drop_append, List.filterMap_append, ← List.map_drop, List.drop_take,
      List.filterMap_map, Function.id_comp, List.filterMap_some]
    simp
  have hahead : ((characters text f).drop p).filterMap id ++ text.drop f = text.drop p := by
    rw [hback, ← Nat.add_sub_of_le h, ← List.drop_drop, Nat.add_sub_cancel_left,
      List.take_append_drop]
  have hlength : (characters text f).length = f := by simp [characters]
  rw [place_ofText, Reader.cursor]
  dsimp only
  rw [hlength]
  exact congrArg (Cursor.mk · p f _) hahead

end

namespace Reply

/-- A reply as the scan it reports, up to the place where the reader is left. All forms of a text
are not the outcome of a single scan. -/
def scan (reply : Reply) (after : Cursor) : Option (Scan (Option Item)) :=
  match reply with
  | .finding a => some (if a.success then .found a.item? after else .absent after)
  | .next (some i) => some (.found (some i) after)
  | .next none => some (.absent after)
  | .raised e => some (.failed e after)
  | .forms _ => none

def Failed : Reply → Prop
  | .finding a => a.success = false
  | _ => False

def item? : Reply → Option Item
  | .finding a => a.item?
  | .next item? => item?
  | _ => none

def ofText : Except SyntaxError (List Form) → Reply
  | .ok fs => .forms fs
  | .error e => .raised e

end Reply

/-- A call at a place is answered by what a scan from there comes to. A failure leaves the position
as it was, and an item moves it forward. -/
def Call.Reports (call : Call) {σ : Type} [CharSource σ] {text : List Char} (d : Feed σ text)
    (p f : Nat) (s : Scan (Option Item)) : Prop :=
  ∃ reply q g, call.perform (.place d p f) = some (reply, .place d q g) ∧ q ≤ g ∧
    reply.scan (d.cursor q g) = some s ∧ (reply.Failed → q = p) ∧ (reply.item?.isSome → p < q)

section
variable {σ : Type} [CharSource σ] {text : List Char} {d : Feed σ text} {p f : Nat} {call : Call}

theorem perform_ok {r t : Reader σ} {reply : Reply} (h : call.body r = .ok reply t) :
    call.perform r = some (reply, t) := by
  rw [Call.perform, h]

theorem perform_error {r t : Reader σ} {e : SyntaxError} (h : call.body r = .error (.error e) t) :
    call.perform r = some (.raised e, t) := by
  rw [Call.perform, h]

theorem Agree.reports {x : ReaderM σ Finding} {s : Scan (Option Item)}
    (hbody : call.body = Reply.finding <$> x) (h : Agree d p (x (.place d p f)) s) :
    call.Reports d p f s := by
  generalize hx : x (.place d p f) = y at h
  cases h with
  | @found i adjustment? q g hp hi hg =>
    have hok : call.body (.place d p f) =
        .ok (.finding ⟨true, i, adjustment?⟩) (.place d q g) := hbody ▸ map_ok hx
    exact ⟨_, q, g, perform_ok hok, hg, rfl, nofun, hi⟩
  | @nothing g hg =>
    have hok : call.body (.place d p f) = .ok (.finding .nothing) (.place d p g) :=
      hbody ▸ map_ok hx
    exact ⟨_, p, g, perform_ok hok, hg, rfl, fun _ => rfl, nofun⟩
  | @failed e q g hg =>
    have herror : call.body (.place d p f) = .error (.error e) (.place d q g) :=
      hbody ▸ map_error hx
    exact ⟨_, q, g, perform_error herror, hg, rfl, nofun, nofun⟩

theorem Parsed.reports {s : Scan Item}
    (hbody : call.body = Reply.next <$> (parse : ReaderM σ (Option Item)))
    (h : Parsed d p (parse (.place d p f)) s) : call.Reports d p f (s.map some) := by
  generalize hx : parse (.place d p f) = y at h
  cases h with
  | @found i q g hp hg =>
    have hok : call.body (.place d p f) = .ok (.next (some i)) (.place d q g) :=
      hbody ▸ map_ok hx
    exact ⟨_, q, g, perform_ok hok, hg, rfl, nofun, fun _ => hp⟩
  | @absent q g hg =>
    have hok : call.body (.place d p f) = .ok (.next none) (.place d q g) :=
      hbody ▸ map_ok hx
    exact ⟨_, q, g, perform_ok hok, hg, rfl, nofun, nofun⟩
  | @failed e q g hg =>
    have herror : call.body (.place d p f) = .error (.error e) (.place d q g) :=
      hbody ▸ map_error hx
    exact ⟨_, q, g, perform_error herror, hg, rfl, nofun, nofun⟩

theorem blanks_agree (h : p ≤ f) :
    Agree d p (blanks (.place d p f)) (.found none (d.cursor p f).skipBlanks) := by
  rw [blanks_place h rfl, skipBlanks_place h rfl]
  exact .found (Nat.le_add_right _ _) nofun (by omega)

theorem lookahead_agree (c : Option Char) (h : p ≤ f) :
    Agree d p (lookahead c (.place d p f))
      (((d.cursor p f).attempt (Token.exactly c)).map fun _ => none) := by
  have hhead : (text.drop p).head? = text[p]? := List.head?_drop
  rw [lookahead_place c h, attempt_place _ h rfl, Token.exactly, hhead]
  by_cases hc : text[p]? = c
  · rw [if_pos hc, if_pos hc]
    exact .found (Nat.le_succ p) nofun (Nat.le_max_right _ _)
  · rw [if_neg hc, if_neg hc]
    exact .nothing (by omega)

theorem component_reports (which : Component) (h : p ≤ f) :
    (Call.component which).Reports d p f (which.run (d.cursor p f)) := by
  cases which with
  | blanks => exact (blanks_agree h).reports rfl
  | lookahead c => exact (lookahead_agree c h).reports rfl
  | comment => exact (comment_agree h).reports rfl
  | text => exact (text_agree h).reports rfl
  | float => exact (float_agree h).reports rfl
  | integer => exact (integer_agree h).reports rfl
  | symbol => exact (symbol_agree h).reports rfl
  | list => exact (list_agree h).reports rfl
  | item => exact (form_agree h).reports rfl
  | next => exact (parse_agree h).reports rfl

theorem perform_nested (nested : List Char) (r : Reader σ) :
    (Call.nested nested).perform r =
      some (.ofText (StackLang.readText (String.ofList nested)), r) := by
  have h := readText_eq nested r
  cases hr : StackLang.readText (String.ofList nested) with
  | ok forms =>
    rw [hr] at h
    have hok : (Call.nested nested).body r = .ok (.forms forms) r := map_ok h
    exact perform_ok hok
  | error e =>
    rw [hr] at h
    have herror : (Call.nested nested).body r = .error (.error e) r := map_error h
    exact perform_error herror

end

/-- A call of any kind, answered in a consistent reader, leaves a consistent reader. -/
theorem Reader.Consistent.perform {text : List Char} {r : Reader (List Char)}
    (h : r.Consistent text)
    (call : Call) : ∃ reply t, call.perform r = some (reply, t) ∧ t.Consistent text := by
  have hle : r.position.toNat ≤ r.buffer.length := Int.toNat_le.2 h.position_le
  cases call with
  | component which =>
    obtain ⟨reply, q, g, hperform, hg, -⟩ := component_reports (d := .ofText text) which hle
    rw [← h.eq_place] at hperform
    exact ⟨reply, _, hperform, consistent_place hg⟩
  | nested nested => exact ⟨_, r, perform_nested nested r, h⟩

theorem Reader.Consistent.after {text : List Char} {r : Reader (List Char)}
    (h : r.Consistent text)
    (calls : List Call) : ∃ t, r.after calls = some t ∧ t.Consistent text := by
  induction calls generalizing r with
  | nil => exact ⟨r, rfl, h⟩
  | cons call calls ih =>
    obtain ⟨reply, t, hperform, ht⟩ := h.perform call
    obtain ⟨u, hafter, hu⟩ := ih ht
    refine ⟨u, ?_, hu⟩
    rw [Reader.after, List.foldlM_cons, hperform]
    exact hafter

theorem consistent_fresh (text : List Char) : (Reader.fresh text).Consistent text :=
  fresh_eq_place text ▸ consistent_place (Nat.le_refl 0)

/-- After any calls, whatever has come of them, the reader is consistent with its text. The next
call is answered as that part of reading is from the same place: a failure leaves the position as it
was, an item moves it forward, and reading another text changes nothing, even if that text has a
fault. -/
theorem reader_consistent_after_calls (text : List Char) (calls : List Call) :
    ∃ r, (Reader.fresh text).after calls = some r ∧ r.Consistent text ∧
      (∀ which, ∃ reply t, (Call.component which).perform r = some (reply, t) ∧
        reply.scan t.cursor = some (which.run r.cursor) ∧
        (reply.Failed → t.position = r.position) ∧
        (reply.item?.isSome → r.position < t.position)) ∧
      ∀ nested, (Call.nested nested).perform r =
        some (.ofText (StackLang.readText (String.ofList nested)), r) := by
  obtain ⟨r, hafter, hr⟩ := (consistent_fresh text).after calls
  refine ⟨r, hafter, hr, fun which => ?_, fun nested => perform_nested nested r⟩
  have hle : r.position.toNat ≤ r.buffer.length := Int.toNat_le.2 hr.position_le
  obtain ⟨reply, q, g, hperform, hg, hscan, hback, hforth⟩ :=
    component_reports (d := .ofText text) which hle
  have hposition := Int.toNat_of_nonneg hr.position_nonneg
  have hcursor : (Reader.place (.ofText text) _ _).cursor = .place text _ _ := cursor_place hle
  rw [← hr.eq_place] at hperform hcursor
  rw [cursor_ofText, cursor_ofText, ← hcursor] at hscan
  refine ⟨reply, .place (.ofText text) q g, hperform, ?_, fun hf => ?_, fun hi => ?_⟩
  · rw [cursor_place hg]
    exact hscan
  · rw [← hposition]
    exact congrArg Int.ofNat (hback hf)
  · rw [← hposition]
    exact Int.ofNat_lt.2 (hforth hi)

end StackLang.Buffered
