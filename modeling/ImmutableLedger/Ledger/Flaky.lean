import ImmutableLedger.Ledger.Commit

/-!
# A backend that may fail

The in-memory backend behind calls that fail when they are told to. A failing call has no effect. The batches that
were written are kept in a log, so that a run shows how often it wrote, and the calls on a tape.
-/

namespace ImmutableLedger

/-- The in-memory backend behind calls that may fail: `fates` tells for each call to come whether it fails, and with
which error; once they are used up every call goes through. -/
structure Flaky where
  mem : MemBackend
  fates : List (Option String) := []
  log : List (List BatchOp) := []
  /-- The calls so far: a write, or a read. -/
  tape : List Bool := []
  /-- Reads always go through, and use up no fate. -/
  sparing : Bool := false

namespace Flaky

/-- The error of the next call, if it fails. -/
def fate (b : Flaky) (write : Bool) : Option String := if write || !b.sparing then b.fates.head?.join else none

/-- The backend after a call. -/
def ticked (b : Flaky) (write : Bool) : Flaky :=
  { b with fates := if write || !b.sparing then b.fates.tail else b.fates, tape := b.tape ++ [write] }

/-- A batch that is written. -/
def written (b : Flaky) (ops : List BatchOp) : Flaky :=
  { b with mem := b.mem.writeBatch ops, log := b.log ++ [ops] }

/-- Of the calls a run makes when every call goes through, those that go through under the given fates: the ones before
the first that fails. -/
def through : List (Option String) → List Bool → List Bool
  | [], tape => tape
  | _, [] => []
  | none :: fates, call :: tape => call :: through fates tape
  | some _ :: _, _ => []

/-- The call that fails, if one does. -/
def failing (fates : List (Option String)) (tape : List Bool) : Option Bool := tape[(through fates tape).length]?

end Flaky

instance : Backend Flaky where
  get b k :=
    match b.fate false with
    | some e => (.error e, b.ticked false)
    | none => (.ok (OrdMap.get b.mem k), b.ticked false)
  writeBatch b ops :=
    match b.fate true with
    | some e => (.error e, b.ticked true)
    | none => (.ok (), (b.ticked true).written ops)
  scan b start stop limit :=
    match b.fate false with
    | some e => (.error e, b.ticked false)
    | none => (.ok (b.mem.scan start stop limit), b.ticked false)
  len b := b.mem.size

/-- The handle over another backend. -/
def Store.onto {β γ : Type} (s : Store β) (b : γ) : Store γ where
  backend := b
  ck := s.ck
  cipher := s.cipher
  ckptMAC := s.ckptMAC
  root := s.root
  version := s.version
  rootChild := s.rootChild
  cache := s.cache
  snapshotPin := s.snapshotPin
  history := s.history
  wantHistory := s.wantHistory
  historyHead := s.historyHead
  entropy := s.entropy

/-- The handle `s` over a backend whose calls have the given fates. -/
def Store.over (s : Store MemBackend) (fates : List (Option String)) (log : List (List BatchOp)) : Store Flaky :=
  s.onto { mem := s.backend, fates, log }

/-- The handle over the records alone, all its calls going through. -/
def Store.plain (t : Store Flaky) : Store MemBackend := t.onto t.backend.mem

/-- The handle with every call to come going through. -/
def Store.healthy (t : Store Flaky) : Store Flaky := { t with backend := { t.backend with fates := [] } }

section
variable (t : Store Flaky)

/-- The handle after a call of its backend. -/
def Store.ticked (write : Bool) : Store Flaky := { t with backend := t.backend.ticked write }

theorem backendGet_goes (key : Bytes) (h : t.backend.fate false = none) :
    backendGet key t = .ok (OrdMap.get t.backend.mem key) (t.ticked false) := by
  unfold backendGet Store.ticked
  simp only [Backend.get, h]

theorem backendGet_fails (key : Bytes) {e : String} (h : t.backend.fate false = some e) :
    backendGet key t = .error (errBackend e) (t.ticked false) := by
  unfold backendGet Store.ticked
  simp only [Backend.get, h]

theorem backendWriteBatch_goes (wrap : String → Err) (ops : List BatchOp) (h : t.backend.fate true = none) :
    backendWriteBatch wrap ops t = .ok () { t with backend := (t.backend.ticked true).written ops } := by
  unfold backendWriteBatch
  simp only [Backend.writeBatch, h]

theorem backendWriteBatch_fails (wrap : String → Err) (ops : List BatchOp) {e : String}
    (h : t.backend.fate true = some e) : backendWriteBatch wrap ops t = .error (wrap e) (t.ticked true) := by
  unfold backendWriteBatch Store.ticked
  simp only [Backend.writeBatch, h]

end

namespace Flaky

variable {fates : List (Option String)} {tape : List Bool}

@[simp] theorem through_nil (fates : List (Option String)) : through fates [] = [] := by
  rcases fates with _ | ⟨_ | e, fates⟩ <;> rfl

/-- Calls that come after one that failed do not matter. -/
theorem through_append (h : (through fates tape).length < tape.length) (more : List Bool) :
    through fates (tape ++ more) = through fates tape := by
  fun_induction through fates tape with
  | case1 tape | case2 => exact absurd h (lt_irrefl _)
  | case3 fates call tape ih =>
    show call :: through fates (tape ++ more) = _
    rw [ih (Nat.lt_of_succ_lt_succ h)]
  | case4 e fates tape hne =>
    cases tape with
    | nil => exact absurd rfl hne
    | cons call tape => rfl

/-- A call that goes through is followed by those that go through after it. -/
theorem through_goes {b : Flaky} {write : Bool} (hb : b.sparing = false) (h : b.fate write = none) (tape : List Bool) :
    through b.fates (write :: tape) = write :: through (b.ticked write).fates tape := by
  unfold fate at h
  unfold ticked
  rw [hb, Bool.not_false, Bool.or_true] at h ⊢
  cases hf : b.fates with
  | nil => rfl
  | cons f fates =>
    rw [hf] at h
    cases f with
    | none => rfl
    | some e => cases h

theorem through_fails {b : Flaky} {write : Bool} {e : String} (hb : b.sparing = false) (h : b.fate write = some e)
    (tape : List Bool) : through b.fates (write :: tape) = [] := by
  unfold fate at h
  rw [hb, Bool.not_false, Bool.or_true] at h
  cases hf : b.fates with
  | nil =>
    rw [hf] at h
    cases h
  | cons f fates =>
    rw [hf] at h
    cases f with
    | none => cases h
    | some e => rfl

end Flaky

end ImmutableLedger
