import ImmutableLedger.Proof.Sessions
import ImmutableLedger.Proof.RowCodec

/-!
# AUTO_INCREMENT

Whether a generated value is new: above every value generated since the store was opened and above every positive value
committed in the column.

An insert advances the counter past a value it is given by a switch over the Go type of the value (`table.go`). The switch
has the 32-bit and the 64-bit types. A value of a column of 8 or 16 bits is none of them and leaves the counter where it is.
The counter itself wraps at `2^64`.

* `bumpAutoInc_covers`: the counter an insert leaves.
* `CounterInv`: what holds between the counter in memory, the stored one, the buffers and the rows, along every run.
* `autoInc_fresh`: a generated value is new as long as the counter is told of every value and has not wrapped.
-/

namespace ImmutableLedger

open EStateM Machine

/-! ## Values and the counter -/

/-- The number that a value of an integer type is. -/
def GoVal.intValue : GoVal → Option ℤ
  | .int8 v => some v.toInt
  | .int16 v => some v.toInt
  | .int32 v => some v.toInt
  | .int64 v => some v.toInt
  | .int v => some v.toInt
  | .uint8 v => some v.toNat
  | .uint16 v => some v.toNat
  | .uint32 v => some v.toNat
  | .uint64 v => some v.toNat
  | .uint v => some v.toNat
  | _ => none

/-- The integer types of a column. -/
def QType.isInteger : QType → Bool
  | .int8 | .int16 | .int24 | .int32 | .int64 | .uint8 | .uint16 | .uint24 | .uint32 | .uint64 => true
  | _ => false

/-- The integer types whose Go type the insert's switch has. -/
def QType.isWide : QType → Bool
  | .int24 | .int32 | .int64 | .uint24 | .uint32 | .uint64 => true
  | _ => false

theorem toNat_toUInt64_of_pos {x : Int64} (h : x > 0) : (x.toUInt64.toNat : ℤ) = x.toInt := by
  have hle : (0 : Int64) ≤ x := Int64.le_of_lt h
  have hint : 0 ≤ x.toInt := Int64.le_iff_toInt_le.1 hle
  rw [Int64.toNat_toUInt64_of_le hle]
  exact Int.toNat_of_nonneg hint

theorem toInt64_pos {x : Int32} (h : x > 0) : x.toInt64 > 0 := by
  have hpos : 0 < x.toInt := Int32.lt_iff_toInt_lt.1 h
  refine Int64.lt_iff_toInt_lt.2 ?_
  rw [Int32.toInt_toInt64]
  exact hpos

theorem explicitAutoInc_int64 (x : Int64) : explicitAutoInc (.int64 x) = if x > 0 then x.toUInt64 else 0 := rfl

theorem explicitAutoInc_int32 (x : Int32) : explicitAutoInc (.int32 x) = if x > 0 then x.toInt64.toUInt64 else 0 := rfl

/-- What advances the counter is the value itself. -/
theorem intValue_of_explicitAutoInc {v : GoVal} (h : explicitAutoInc v ≠ 0) :
    v.intValue = some ((explicitAutoInc v).toNat : ℤ) := by
  cases v with
  | int64 x =>
    rw [explicitAutoInc_int64] at h ⊢
    by_cases hx : x > 0
    · rw [if_pos hx, toNat_toUInt64_of_pos hx]
      rfl
    · exact absurd (if_neg hx) h
  | int32 x =>
    rw [explicitAutoInc_int32] at h ⊢
    by_cases hx : x > 0
    · rw [if_pos hx, toNat_toUInt64_of_pos (toInt64_pos hx), Int32.toInt_toInt64]
      rfl
    · exact absurd (if_neg hx) h
  | uint64 x => rfl
  | uint32 x => exact congrArg (fun n : ℕ => some (n : ℤ)) (UInt32.toNat_toUInt64 x).symm
  | _ => exact absurd rfl h

/-- **A positive value of a wide column advances the counter.** -/
theorem explicitAutoInc_of_wide {qt : QType} {v : GoVal} {x : ℤ} (hw : qt.isWide = true) (ht : v.HasType qt)
    (hx : v.intValue = some x) (hpos : 0 < x) : ((explicitAutoInc v).toNat : ℤ) = x := by
  -- the value is of one of the four types of the switch, and none is negative
  have hne : explicitAutoInc v ≠ 0 := by
    intro h
    cases qt <;> cases hw
    all_goals cases v <;> first | exact absurd ht not_false | skip
    all_goals rename_i y
    all_goals cases hx
    case int64 =>
      have hy : y > 0 := Int64.lt_iff_toInt_lt.2 hpos
      rw [explicitAutoInc_int64, if_pos hy] at h
      have := toNat_toUInt64_of_pos hy
      rw [h] at this
      exact hpos.ne this
    case uint64 =>
      have : y = 0 := h
      rw [this] at hpos
      exact hpos.false
    case uint24 | uint32 =>
      have : y.toUInt64.toNat = 0 := congrArg UInt64.toNat h
      rw [UInt32.toNat_toUInt64] at this
      omega
    case int24 | int32 =>
      have hy : y > 0 := Int32.lt_iff_toInt_lt.2 hpos
      rw [explicitAutoInc_int32, if_pos hy] at h
      have := toNat_toUInt64_of_pos (toInt64_pos hy)
      rw [h, Int32.toInt_toInt64] at this
      exact hpos.ne this
  exact Option.some.inj ((intValue_of_explicitAutoInc hne).symm.trans hx)

/-- An integer column is of a fixed width. -/
theorem kind_of_isInteger {c : ColDef} (hw : c.qtype.isInteger = true) :
    ∃ kind, c.kind = .ok kind ∧ kind ≠ .string ∧ kind ≠ .bytes := by
  unfold ColDef.kind
  cases hq : c.qtype <;> rw [hq] at hw <;> cases hw <;> exact ⟨_, rfl, by decide, by decide⟩

/-- The values of an integer column are stored as they are. -/
theorem stored_of_isInteger {qt : QType} {v : GoVal} (hw : qt.isInteger = true) (ht : v.HasType qt) : v.stored = v := by
  cases v with
  | time ns => cases qt <;> first | exact absurd ht not_false | cases hw
  | _ => rfl

variable {row : Row}

/-- **The counter an insert leaves**: at least the old one, above every value it is told of, and within their bound. -/
theorem bumpAutoInc_covers {B : ℕ} (hB : B < 2 ^ 64) : ∀ {cols : List ColDef} {i : ℕ} {next next' : UInt64},
    bumpAutoInc row i cols next = .ok next' → next.toNat ≤ B →
    (∀ j c v, cols[j]? = some c → c.autoInc = true → row[i + j]? = some (some v) → (explicitAutoInc v).toNat < B) →
    next.toNat ≤ next'.toNat ∧ next'.toNat ≤ B ∧ ∀ j c v, cols[j]? = some c → c.autoInc = true →
      row[i + j]? = some (some v) → explicitAutoInc v ≠ 0 → (explicitAutoInc v).toNat < next'.toNat := by
  intro cols
  induction cols with
  | nil =>
    intro i next next' h hnext _
    cases h
    exact ⟨le_rfl, hnext, fun j c v hc => by rw [List.getElem?_nil] at hc; cases hc⟩
  | cons c cols ih =>
    intro i next next' h hnext hrow
    have hrest : ∀ j c' v, cols[j]? = some c' → c'.autoInc = true → row[i + 1 + j]? = some (some v) →
        (explicitAutoInc v).toNat < B := by
      intro j c' v hc ha hv
      exact hrow (j + 1) c' v hc ha (by rw [← hv]; congr 1; omega)
    -- the columns after this one, from whatever counter it leaves
    have htail : ∀ {n : UInt64}, bumpAutoInc row (i + 1) cols n = .ok next' → next.toNat ≤ n.toNat → n.toNat ≤ B →
        (∀ v, c.autoInc = true → row[i]? = some (some v) → explicitAutoInc v ≠ 0 → (explicitAutoInc v).toNat < n.toNat) →
        next.toNat ≤ next'.toNat ∧ next'.toNat ≤ B ∧ ∀ j c' v, (c :: cols)[j]? = some c' → c'.autoInc = true →
          row[i + j]? = some (some v) → explicitAutoInc v ≠ 0 → (explicitAutoInc v).toNat < next'.toNat := by
      intro n hn hle hnB hhere
      obtain ⟨hmono, hbound, hcov⟩ := ih hn hnB hrest
      refine ⟨hle.trans hmono, hbound, fun j c' v hc ha hv hne => ?_⟩
      cases j with
      | zero =>
        cases hc
        exact (hhere v ha hv hne).trans_le hmono
      | succ j => exact hcov j c' v hc ha (by rw [← hv]; congr 1; omega) hne
    unfold bumpAutoInc at h
    by_cases ha : c.autoInc = true
    · rw [if_neg (not_not.2 ha)] at h
      unfold rowAt at h
      cases hi : row[i]? with
      | none =>
        rw [hi] at h
        cases h
      | some o =>
        rw [hi] at h
        cases o with
        | none => exact htail h le_rfl hnext fun v _ hv => by cases hi.symm.trans hv
        | some v =>
          have hv := hrow 0 c v rfl ha hi
          set x := explicitAutoInc v with hx
          change bumpAutoInc row (i + 1) cols (if x > 0 ∧ x ≥ next then x + 1 else next) = .ok next' at h
          have hsucc : (x + 1).toNat = x.toNat + 1 := by
            rw [UInt64.toNat_add]
            exact Nat.mod_eq_of_lt (by show x.toNat + 1 < 2 ^ 64; omega)
          by_cases hraise : x > 0 ∧ x ≥ next
          · rw [if_pos hraise] at h
            have hge : next.toNat ≤ x.toNat := UInt64.le_iff_toNat_le.1 hraise.2
            refine htail h (by omega) (by omega) fun v' _ hv' _ => ?_
            obtain rfl : v = v' := Option.some.inj (Option.some.inj (hi.symm.trans hv'))
            rw [← hx]
            omega
          · rw [if_neg hraise] at h
            refine htail h le_rfl hnext fun v' _ hv' hne => ?_
            obtain rfl : v = v' := Option.some.inj (Option.some.inj (hi.symm.trans hv'))
            rw [← hx] at hne ⊢
            have hpos : x > 0 := UInt64.pos_iff_ne_zero.2 hne
            have hlt : x < next := UInt64.not_le.1 fun hle => hraise ⟨hpos, hle⟩
            exact UInt64.lt_iff_toNat_lt.1 hlt
    · rw [if_pos ha] at h
      exact htail h le_rfl hnext fun v ha' => absurd ha' ha

/-! ## What is watched -/

variable {C : Crypto} {ck : Bytes} {G : GoLib} {id : UInt64} {d : TableDef} {i k : ℕ}

/-- The column holds the number `x` in a committed row of the table. -/
def StoredValue (G : GoLib) (d : TableDef) (i : ℕ) (vals : OrdMap Bytes Bytes) (x : ℤ) : Prop :=
  ∃ pk raw row v, vals.get (rowKey d.id pk) = some raw ∧ decodeRow G.round32 d.columns (raw.drop 9) = .ok row ∧
    row[i]? = some (some v) ∧ v.intValue = some x

/-- The history of a table: the values generated since the store was opened, all generated ones, and the numbers that the
column ever held in a committed row. -/
structure History where
  fresh : List UInt64 := []
  all : List UInt64 := []
  committed : Set ℤ := ∅

/-- The value a call generates for the table. -/
def generatedBy (id : UInt64) : Event → Except SqlErr SessionReply → List UInt64
  | .nextValue table none, .ok (.value v) => if table = id then [v] else []
  | _, _ => []

/-- The history after a call. -/
def History.after (G : GoLib) (d : TableDef) (i : ℕ) (h : History) (e : Event) (reply : Except SqlErr SessionReply)
    (vals : OrdMap Bytes Bytes) : History where
  fresh := match e with
    | .reopen => []
    | _ => generatedBy d.id e reply ++ h.fresh
  all := generatedBy d.id e reply ++ h.all
  committed := h.committed ∪ {x | StoredValue G d i vals x}

/-- The session machine and the history of a table. -/
def watched (G : GoLib) (d : TableDef) (i : ℕ) (s : World (MapLedger C ck) × History) (c : ℕ × Event) :
    Except SqlErr SessionReply × (World (MapLedger C ck) × History) :=
  let r := World.step G s.1 c
  (r.1, r.2, s.2.after G d i c.2 r.1 r.2.store.led.vals)

/-- A row for the table: its values in the `AUTO_INCREMENT` column have the Go type of the column and are below `2^63 - 1`
or generated ones. (A Go slice is shorter than `2^63`.) -/
structure RowGiven (d : TableDef) (all : List UInt64) (row : Row) : Prop where
  typed : ∀ (j : ℕ) (c : ColDef) (v : GoVal), d.columns[j]? = some c → c.autoInc = true → row[j]? = some (some v) → v.HasType c.qtype
  value : ∀ (j : ℕ) (c : ColDef) (v : GoVal) (x : ℤ), d.columns[j]? = some c → c.autoInc = true →
    row[j]? = some (some v) → v.intValue = some x → x < 2 ^ 63 - 1 ∨ ∃ g ∈ all, x = g.toNat
  short : ∀ data, encodeRow d.columns row = .ok data → data.length < 2 ^ 63

/-- The calls of the runs: every call but `Update`, `Delete`, `SetAutoIncrementValue` and `GetNextAutoIncrementValue` of a
given value. -/
def Permitted (d : TableDef) (s : World (MapLedger C ck) × History) (c : ℕ × Event) : Prop :=
  match c.2 with
  | .insert table row => table = d.id → RowGiven d s.2.all row
  | .nextValue _ insertVal => insertVal = none
  | .update .. | .delete .. | .setValue .. => False
  | _ => True

/-- An insert tells the counter of its value: the column is of a type of the switch, or the value is below the counter. -/
def Told (d : TableDef) (i : ℕ) (s : World (MapLedger C ck) × History) (c : ℕ × Event) : Prop :=
  ∀ table row col v x, c.2 = .insert table row → table = d.id → d.columns[i]? = some col → row[i]? = some (some v) →
    v.intValue = some x → 0 < x →
    col.qtype.isWide = true ∨ ∀ e, s.1.store.defs.get d.id = some e → x < e.autoIncNext.toNat

/-- A generated value is new. -/
def History.Above (h : History) (v : UInt64) : Prop :=
  (∀ g ∈ h.fresh, g < v) ∧ ∀ x ∈ h.committed, 0 < x → x < v.toNat

/-! ## Buffers -/

/-- The buffers of a transaction: its own and those of its savepoints. -/
def StoreTxn.buffers (t : StoreTxn) : List (OrdMap UInt64 TableTxn) := t.tables :: t.savepoints.map Savepoint.tables

/-- The statement buffers of a session and the buffers of its transaction. -/
def Session.buffers (sess : Session) : List (OrdMap UInt64 TableTxn) := sess.editors :: sess.txn.elim [] StoreTxn.buffers

/-- One of the buffers holds the row as a new one. -/
def Holds (buffers : List (OrdMap UInt64 TableTxn)) (id : UInt64) (row : Row) : Prop :=
  ∃ b ∈ buffers, ∃ pk p, entryAt b id pk = some p ∧ p.new = some row

/-- A session holds the row. -/
def World.Holds (w : World (MapLedger C ck)) (id : UInt64) (row : Row) : Prop :=
  ∃ j, ImmutableLedger.Holds (w.sessions j).buffers id row

theorem Holds.mono {bs bs' : List (OrdMap UInt64 TableTxn)} (h : Holds bs id row) (hsub : bs ⊆ bs') :
    Holds bs' id row := by
  obtain ⟨b, hb, hrow⟩ := h
  exact ⟨b, hsub hb, hrow⟩

theorem not_holds_idle (row : Row) : ¬ Holds (Session.buffers {}) id row := by
  rintro ⟨b, hb, pk, p, hp, -⟩
  obtain rfl := List.mem_singleton.1 hb
  cases hp

/-- A folded statement buffer: the transaction holds what it held and what the editor held. -/
theorem holds_folded {t : StoreTxn} {table : UInt64} {pending : TableTxn}
    (h : Holds (t.folded table pending).buffers id row) :
    Holds t.buffers id row ∨ (table = id ∧ ∃ pk p, pending.get pk = some p ∧ p.new = some row) := by
  obtain ⟨b, hb, pk, p, hp, hnew⟩ := h
  rcases List.mem_cons.1 hb with rfl | hb
  · have hins := entryAt_insert t.tables table (foldPending (txnView (some t) table) pending) id pk
    rw [get_foldPending] at hins
    rw [show entryAt (t.folded table pending).tables id pk = _ from hins] at hp
    split at hp
    · rename_i hid
      subst hid
      -- the new row of a folded entry is the statement's where it has one
      cases hq : (txnView (some t) id).get pk with
      | none =>
        cases hr : pending.get pk with
        | none => rw [hq, hr] at hp; cases hp
        | some r => rw [hq, hr] at hp; cases hp; exact .inr ⟨rfl, pk, p, hr, hnew⟩
      | some q =>
        cases hr : pending.get pk with
        | none => rw [hq, hr] at hp; cases hp; exact .inl ⟨_, List.mem_cons_self, pk, p, hq, hnew⟩
        | some r => rw [hq, hr] at hp; cases hp; exact .inr ⟨rfl, pk, r, hr, hnew⟩
    · exact .inl ⟨_, List.mem_cons_self, pk, p, hp, hnew⟩
  · exact .inl ⟨b, List.mem_cons_of_mem _ hb, pk, p, hp, hnew⟩

section
variable {name : Bytes} {t t' : StoreTxn}

theorem buffers_createSavepoint : (createSavepoint G name t).buffers ⊆ t.buffers := by
  intro b hb
  rcases List.mem_cons.1 hb with rfl | hb
  · exact List.mem_cons_self
  · obtain ⟨sp, hsp, rfl⟩ := List.mem_map.1 hb
    rcases List.mem_append.1 hsp with hsp | hsp
    · exact List.mem_cons_of_mem _ (List.mem_map_of_mem (mem_dropSavepoint hsp))
    · rw [List.mem_singleton.1 hsp]
      exact List.mem_cons_self

theorem buffers_rollbackToSavepoint (h : rollbackToSavepoint G name t = .ok t') : t'.buffers ⊆ t.buffers := by
  unfold rollbackToSavepoint at h
  cases hlast : (savepointsUpTo G name t.savepoints).getLast? with
  | none => rw [hlast] at h; cases h
  | some last =>
    rw [hlast] at h
    cases h
    refine List.cons_subset.2 ⟨?_, fun b hb => ?_⟩
    · exact List.mem_cons_of_mem _ (List.mem_map_of_mem (mem_savepointsUpTo (List.mem_of_getLast? hlast)))
    · obtain ⟨sp, hsp, rfl⟩ := List.mem_map.1 hb
      exact List.mem_cons_of_mem _ (List.mem_map_of_mem (mem_savepointsUpTo hsp))

theorem buffers_releaseSavepoint (h : releaseSavepoint G name t = .ok t') : t'.buffers ⊆ t.buffers := by
  unfold releaseSavepoint at h
  cases hlast : (savepointsUpTo G name t.savepoints).getLast? with
  | none => rw [hlast] at h; cases h
  | some last =>
    rw [hlast] at h
    cases h
    refine List.cons_subset_cons _ fun b hb => ?_
    obtain ⟨sp, hsp, rfl⟩ := List.mem_map.1 hb
    exact List.mem_map_of_mem (mem_savepointsUpTo (List.mem_of_mem_dropLast hsp))

end

/-! ## What a call does to the counter, the map and the buffers -/

variable {n : ℕ}

section
variable {w w' : World (MapLedger C ck)}

theorem World.Holds.withSession {sess : Session} (h : (w.withSession n sess).Holds id row) :
    ImmutableLedger.Holds sess.buffers id row ∨ w.Holds id row := by
  obtain ⟨j, h⟩ := h
  by_cases hj : j = n
  · subst hj
    rw [World.withSession_self] at h
    exact .inl h
  · rw [World.withSession_of_ne w sess hj] at h
    exact .inr ⟨j, h⟩

theorem holds_pending {pk : Bytes} {p : PendingRow} (hp : ((w.sessions n).pending id).get pk = some p)
    (hnew : p.new = some row) : w.Holds id row := ⟨n, _, List.mem_cons_self, pk, p, hp, hnew⟩

/-- What a call other than `GetNextAutoIncrementValue` and a reopening does. -/
inductive Effect (id : UInt64) (w : World (MapLedger C ck)) : Event → World (MapLedger C ck) → Prop
  | quiet {e : Event} {w' : World (MapLedger C ck)} (hdefs : w'.store.defs = w.store.defs)
      (hvals : w'.store.led.vals = w.store.led.vals) (hholds : ∀ row, w'.Holds id row → w.Holds id row) : Effect id w e w'
  | counted {table : UInt64} {row : Row} {d : TableDef} {next : UInt64} {w' : World (MapLedger C ck)}
      (hd : w.store.defs.get table = some d) (hb : bumpAutoInc row 0 d.columns d.autoIncNext = .ok next)
      (hdefs : w'.store.defs = w.store.defs.insert table { d with autoIncNext := next })
      (hvals : w'.store.led.vals = w.store.led.vals)
      (hholds : ∀ r, w'.Holds id r → w.Holds id r ∨ (table = id ∧ r = row)) : Effect id w (.insert table row) w'
  | wrote {e : Event} {tts : List (UInt64 × TableTxn)} {ops : List Op} {w' : World (MapLedger C ck)}
      (hbatch : BatchOf w.store tts ops) (hnodup : (tts.map Prod.fst).Nodup)
      (hfrom : ∀ tt pk p row, (id, tt) ∈ tts → tt.get pk = some p → p.new = some row → w.Holds id row)
      (hdefs : w'.store.defs = w.store.defs) (hvals : w'.store.led.vals = (w.store.led.put ops).vals)
      (hholds : ∀ row, w'.Holds id row → w.Holds id row) : Effect id w e w'

/-- A commit writes the operations of its buffers, or nothing. -/
theorem Effect.of_landed {e : Event} {tts : List (UInt64 × TableTxn)} {ops : List Op} (hl : Landed ops w.store w'.store)
    (hbatch : BatchOf w.store tts ops) (hnodup : (tts.map Prod.fst).Nodup)
    (hfrom : ∀ tt pk p row, (id, tt) ∈ tts → tt.get pk = some p → p.new = some row → w.Holds id row)
    (hholds : ∀ row, w'.Holds id row → w.Holds id row) : Effect id w e w' := by
  rcases hl.vals with hv | hv
  · exact .quiet hl.defs hv hholds
  · exact .wrote hbatch hnodup hfrom hl.defs hv hholds

/-- The rows held after a call on an editor that leaves the transaction. -/
theorem holds_edited {s : EditState (MapLedger C ck)} (htxn : s.txn = (w.sessions n).txn)
    (h : (w.edited n s).Holds id row) :
    w.Holds id row ∨ (s.editor.table = id ∧ ∃ pk p, s.editor.pending.get pk = some p ∧ p.new = some row) := by
  rcases h.withSession with ⟨b, hb, pk, p, hp, hnew⟩ | h
  · rcases List.mem_cons.1 hb with rfl | hb
    · rw [entryAt_insert] at hp
      split at hp
      · rename_i hid
        exact .inr ⟨hid.symm, pk, p, hp, hnew⟩
      · exact .inl ⟨n, _, List.mem_cons_self, pk, p, hp, hnew⟩
    · rw [htxn] at hb
      exact .inl ⟨n, b, List.mem_cons_of_mem _ hb, pk, p, hp, hnew⟩
  · exact .inl h

theorem effect_insert (n : ℕ) (table : UInt64) (row : Row) :
    Effect id w (.insert table row) (w.edit n table (Editor.insert row)).2 := by
  show Effect id w (.insert table row) (w.edited n (Editor.insert row (w.editState n table)).state)
  have hins := insert_cases row (w.editState n table)
  generalize (Editor.insert row (w.editState n table)).state = s' at hins ⊢
  cases hins with
  | refused =>
    refine .quiet rfl rfl fun r h => ?_
    rcases holds_edited rfl h with hold | ⟨rfl, pk, p, hp, hnew⟩
    · exact hold
    · exact holds_pending hp hnew
  | counted hd hb =>
    refine .counted hd hb rfl rfl fun r h => .inl ?_
    rcases holds_edited rfl h with hold | ⟨rfl, pk, p, hp, hnew⟩
    · exact hold
    · exact holds_pending hp hnew
  | @filed d next pk' hw hd hb hpk hfree =>
    refine .counted hd hb rfl rfl fun r h => ?_
    rcases holds_edited rfl h with hold | ⟨rfl, pk, p, hp, hnew⟩
    · exact .inl hold
    · have hget := (OrdMap.get_insert _ _ _ _).symm.trans hp
      split at hget
      · cases hget
        exact .inr ⟨rfl, (Option.some.inj hnew).symm⟩
      · exact .inl (holds_pending hget hnew)

theorem effect_discard (n : ℕ) (table : UInt64) :
    Effect id w (.discard table) (w.edit n table Editor.discardChanges).2 := by
  refine .quiet rfl rfl fun r h => ?_
  rcases holds_edited (s := (Editor.discardChanges (w.editState n table)).state) rfl h with h | ⟨-, pk, p, hp, -⟩
  · exact h
  · cases hp

theorem effect_close (n : ℕ) (table : UInt64) : Effect id w (.close table) (w.close n table).2 := by
  set s := w.editState n table with hs
  have hclosed := close_cases s
  -- a session that lost an editor
  have herase : ∀ {txn : Option StoreTxn} {st : MapSql C ck} {row : Row},
      (∀ t, txn = some t → Holds t.buffers id row → w.Holds id row) →
      (({ w with store := st } : World _).withSession n { txn, editors := (w.sessions n).editors.erase table }).Holds id row →
      w.Holds id row := by
    intro txn st row htxn h
    rcases h.withSession with ⟨b, hb, pk, p, hp, hnew⟩ | h
    · rcases List.mem_cons.1 hb with rfl | hb
      · rw [entryAt_erase] at hp
        split at hp
        · cases hp
        · exact ⟨n, _, List.mem_cons_self, pk, p, hp, hnew⟩
      · cases txn with
        | none => cases hb
        | some t => exact htxn t rfl ⟨b, hb, pk, p, hp, hnew⟩
    · exact h
  have hkept : ∀ {t : StoreTxn} {row : Row}, (w.sessions n).txn = some t → Holds t.buffers id row → w.Holds id row := by
    intro t row ht hrow
    refine ⟨n, hrow.mono fun b hb => ?_⟩
    unfold Session.buffers
    rw [ht]
    exact List.mem_cons_of_mem _ hb
  show Effect id w (.close table) (({ w with store := (Editor.close s).state.store } : World _).withSession n
    { txn := (Editor.close s).state.txn, editors := (w.sessions n).editors.erase table })
  generalize (Editor.close s).state = s' at hclosed ⊢
  cases hclosed with
  | idle => exact .quiet rfl rfl fun row => herase fun t ht => hkept ht
  | @folded t ht =>
    refine .quiet rfl rfl fun row => herase fun t' ht' hrow => ?_
    cases ht'
    rcases holds_folded hrow with hold | ⟨rfl, pk, p, hp, hnew⟩
    · exact hkept ht hold
    · exact holds_pending hp hnew
  | @committed d r st ht hd hops hl =>
    have hnil : BatchOf w.store [] [] :=
      ⟨fun _ he => absurd he List.not_mem_nil, fun _ hop => absurd hop List.not_mem_nil⟩
    have hbatch : BatchOf w.store [(table, s.editor.pending)] (r.1 ++ counterOps d ++ []) :=
      hnil.cons hd (buildAllOps_ops hops)
    rw [List.append_nil] at hbatch
    refine .of_landed hl hbatch (List.nodup_singleton _) ?_ fun row => herase fun t' ht' => hkept ht'
    intro tt pk p row hmem hp hnew
    obtain ⟨rfl, rfl⟩ := Prod.mk.inj (List.mem_singleton.1 hmem)
    exact holds_pending hp hnew

/-- A session that ends its transaction holds nothing. -/
theorem holds_ended (h : (w.withSession n {}).Holds id row) : w.Holds id row :=
  h.withSession.resolve_left (not_holds_idle row)

theorem effect_commit (n : ℕ) : Effect id w .commit (w.commit n).2 := by
  unfold World.commit
  cases ht : (w.sessions n).txn with
  | none => exact .quiet rfl rfl fun _ h => h
  | some t =>
    show Effect id w .commit { w.withSession n {} with store := (commitTxn t w.store).state }
    rcases commitTxn_landed t w.store with hsame | ⟨r, hops, hl⟩
    · rw [hsame]
      exact .quiet rfl rfl fun _ => holds_ended
    · refine .of_landed hl (commitOps_built hops).1.batchOf t.tables.nodup_keys ?_ fun _ => holds_ended
      intro tt pk p row hmem hp hnew
      refine ⟨n, t.tables, ?_, pk, p, ?_, hnew⟩
      · unfold Session.buffers
        rw [ht]
        exact List.mem_cons_of_mem _ List.mem_cons_self
      · unfold entryAt
        rw [OrdMap.mem_entries.1 hmem]
        exact hp

theorem effect_rollback (n : ℕ) : Effect id w .rollback (w.rollback n) := by
  unfold World.rollback
  cases (w.sessions n).txn with
  | none => exact .quiet rfl rfl fun _ h => h
  | some t => exact .quiet rfl rfl fun _ => holds_ended

/-- A call on the transaction that brings in no buffer. -/
theorem effect_onTxn {e : Event} (n : ℕ) (name : Bytes) {f : StoreTxn → Except SqlErr StoreTxn}
    (hf : ∀ t t', f t = .ok t' → t'.buffers ⊆ t.buffers) : Effect id w e (w.onTxn n name f).2 := by
  unfold World.onTxn
  cases ht : (w.sessions n).txn with
  | none => exact .quiet rfl rfl fun _ h => h
  | some t =>
    dsimp only
    cases hft : f t with
    | error err => exact .quiet rfl rfl fun _ h => h
    | ok t' =>
      refine .quiet rfl rfl fun row h => ?_
      rcases h.withSession with h | h
      · refine ⟨n, h.mono ?_⟩
        unfold Session.buffers
        rw [ht]
        exact List.cons_subset_cons _ (hf t t' hft)
      · exact h

/-- The calls of a run that are neither a generation nor a reopening. -/
def Event.isPlain : Event → Bool
  | .update .. | .delete .. | .nextValue .. | .setValue .. | .reopen => false
  | _ => true

/-- **What such a call does.** -/
theorem step_effect (c : ℕ × Event) (hc : c.2.isPlain = true) : Effect id w c.2 (World.step G w c).2 := by
  obtain ⟨n, e⟩ := c
  cases e with
  | start readOnly =>
    refine .quiet rfl rfl fun row h => ?_
    rcases h.withSession with ⟨b, hb, pk, p, hp, -⟩ | h
    · obtain rfl : b = OrdMap.empty := by simpa [Session.buffers, StoreTxn.buffers, startTransaction] using hb
      cases hp
    · exact h
  | read table pkEnc =>
    have hstate : (World.readRow G w n table pkEnc w.store).state = w.store := reads_worldReadRow w n table pkEnc w.store
    show Effect id w (.read table pkEnc) { w with store := (World.readRow G w n table pkEnc w.store).state }
    rw [hstate]
    exact .quiet rfl rfl fun _ h => h
  | insert table row => exact effect_insert n table row
  | discard table => exact effect_discard n table
  | close table => exact effect_close n table
  | commit => exact effect_commit n
  | rollback => exact effect_rollback n
  | createSavepoint name =>
    refine effect_onTxn n name fun t t' hrun => ?_
    cases hrun
    exact buffers_createSavepoint
  | rollbackToSavepoint name => exact effect_onTxn n name fun t t' => buffers_rollbackToSavepoint
  | releaseSavepoint name => exact effect_onTxn n name fun t t' => buffers_releaseSavepoint
  | update _ _ _ => cases hc
  | delete _ _ => cases hc
  | nextValue _ _ => cases hc
  | setValue _ _ => cases hc
  | reopen => cases hc

end

/-! ## The invariant -/

theorem storedCounter_pos (vals : OrdMap Bytes Bytes) (id : UInt64) : 0 < (storedCounter vals id).toNat := by
  have hne : ∀ x : UInt64, 0 < (if x = 0 then 1 else x : UInt64).toNat := by
    intro x
    split
    · decide
    · rename_i hx
      exact UInt64.lt_iff_toNat_lt.1 (UInt64.pos_iff_ne_zero.2 hx)
  unfold storedCounter
  split
  · decide
  · exact hne _

theorem storedCounter_payload {vals : OrdMap Bytes Bytes} {next : UInt64} (hpos : 0 < next.toNat)
    (h : vals.get (SqlKey.counter id).bytes = some (counterPayload next)) : storedCounter vals id = next := by
  have hlen : (counterPayload next).length = 9 := congrArg (· + 1) (Bytes.length_u64 next)
  have hnext : Bytes.toU64 ((counterPayload next).drop 1) = next := Bytes.toU64_u64 next
  have hne : next ≠ 0 := by
    rintro rfl
    exact hpos.false
  have hread : (if (counterPayload next).length = 9 ∧ (counterPayload next).head? = some tagAutoInc then
      Bytes.toU64 ((counterPayload next).drop 1) else 0) = next := (if_pos ⟨hlen, rfl⟩).trans hnext
  unfold storedCounter
  rw [h]
  dsimp only
  rw [hread, if_neg hne]

/-- The value of a row in the column is below the counter. -/
structure RowBelow (d : TableDef) (i : ℕ) (c : ColDef) (next : UInt64) (row : Row) : Prop where
  typed : ∀ v, row[i]? = some (some v) → v.HasType c.qtype
  below : ∀ v x, row[i]? = some (some v) → v.intValue = some x → x < next.toNat
  short : ∀ data, encodeRow d.columns row = .ok data → data.length < 2 ^ 63

theorem RowBelow.mono {c : ColDef} {next next' : UInt64} (h : RowBelow d i c next row)
    (hle : next.toNat ≤ next'.toNat) : RowBelow d i c next' row :=
  ⟨h.typed, fun v x hv hx => (h.below v x hv hx).trans_le (by exact_mod_cast hle), h.short⟩

/-- What holds along a run of at most `2^63` generations, in which the counter is told of every value: of the definitions
in memory, the stored map and the rows that are held. `st₀` is the store the run starts from. -/
structure CounterInv (st₀ : MapSql C ck) (d : TableDef) (i : ℕ) (c : ColDef) (defs : OrdMap UInt64 TableDef)
    (vals : OrdMap Bytes Bytes) (held : Row → Prop) (h : History) : Prop where
  own : ∀ a e, defs.get a = some e → e.id = a
  keys : ∀ key : SqlKey, (∀ id, key ≠ .counter id) → (∀ id pk, key ≠ .row id pk) →
    vals.get key.bytes = st₀.led.vals.get key.bytes
  defn : ∀ e, defs.get d.id = some e → e.persistent = d.persistent
  generated : ∀ g ∈ h.all, g.toNat < 2 ^ 63 - 1 + h.all.length
  stored : (storedCounter vals d.id).toNat ≤ 2 ^ 63 - 1 + h.all.length
  counter : ∀ e, defs.get d.id = some e →
    (storedCounter vals d.id).toNat ≤ e.autoIncNext.toNat ∧ e.autoIncNext.toNat ≤ 2 ^ 63 - 1 + h.all.length
  fresh : ∀ e, defs.get d.id = some e → ∀ g ∈ h.fresh, g.toNat < e.autoIncNext.toNat
  committed : ∀ x ∈ h.committed, x < (storedCounter vals d.id).toNat
  rows : ∀ pk raw, vals.get (SqlKey.row d.id pk).bytes = some raw → ∃ row data, encodeRow d.columns row = .ok data ∧
    raw = rowPayload d.id data ∧ RowBelow d i c (storedCounter vals d.id) row
  holds : ∀ row, held row → ∃ e, defs.get d.id = some e ∧ RowBelow d i c e.autoIncNext row

/-- The invariant of a world. -/
def CounterOk (st₀ : MapSql C ck) (d : TableDef) (i : ℕ) (c : ColDef) (w : World (MapLedger C ck))
    (h : History) : Prop := CounterInv st₀ d i c w.store.defs w.store.led.vals (w.Holds d.id) h

section
variable {st₀ : MapSql C ck} {c : ColDef} {defs : OrdMap UInt64 TableDef} {vals : OrdMap Bytes Bytes}
  {held held' : Row → Prop} {h h' : History} {w w' : World (MapLedger C ck)}

/-- A counter is raised: that of the table, or of another one. -/
theorem CounterInv.raised (ht : CounterInv st₀ d i c defs vals held h) {table : UInt64} {e : TableDef} {next : UInt64}
    (he : defs.get table = some e) (hall : h.all.length ≤ h'.all.length)
    (hgen : ∀ g ∈ h'.all, g.toNat < 2 ^ 63 - 1 + h'.all.length) (hcommitted : h'.committed = h.committed)
    (hself : table = d.id → e.autoIncNext.toNat ≤ next.toNat ∧ next.toNat ≤ 2 ^ 63 - 1 + h'.all.length ∧
      ∀ g ∈ h'.fresh, g.toNat < next.toNat)
    (hother : table ≠ d.id → h'.fresh = h.fresh)
    (hheld : ∀ row, held' row → held row ∨ (table = d.id ∧ RowBelow d i c next row)) :
    CounterInv st₀ d i c (defs.insert table { e with autoIncNext := next }) vals held' h' := by
  have hget : ∀ a, (defs.insert table { e with autoIncNext := next }).get a =
      if a = table then some { e with autoIncNext := next } else defs.get a := by
    intro a
    rw [OrdMap.get_insert]
    congr
  -- the definition of the table afterwards: the raised one, or the old one
  have hdef : ∀ e', (defs.insert table { e with autoIncNext := next }).get d.id = some e' →
      (table = d.id ∧ e' = { e with autoIncNext := next }) ∨ (table ≠ d.id ∧ defs.get d.id = some e') := by
    intro e' he'
    rw [hget] at he'
    by_cases htable : d.id = table
    · rw [if_pos htable] at he'
      exact .inl ⟨htable.symm, (Option.some.inj he').symm⟩
    · rw [if_neg htable] at he'
      exact .inr ⟨fun h => htable h.symm, he'⟩
  refine ⟨fun a e' he' => ?_, ht.keys, fun e' he' => ?_, hgen, ?_, fun e' he' => ?_, fun e' he' g hg => ?_,
    hcommitted ▸ ht.committed, ht.rows, fun row hrow => ?_⟩
  · rw [hget] at he'
    split at he'
    · rename_i ha
      cases he'
      rw [ha]
      exact ht.own table e he
    · exact ht.own a e' he'
  · rcases hdef e' he' with ⟨rfl, rfl⟩ | ⟨-, hold⟩
    · exact ht.defn e he
    · exact ht.defn e' hold
  · have := ht.stored
    omega
  · rcases hdef e' he' with ⟨rfl, rfl⟩ | ⟨-, hold⟩
    · obtain ⟨hup, hbound, -⟩ := hself rfl
      exact ⟨(ht.counter e he).1.trans hup, hbound⟩
    · have := ht.counter e' hold
      omega
  · rcases hdef e' he' with ⟨rfl, rfl⟩ | ⟨hne, hold⟩
    · exact (hself rfl).2.2 g hg
    · rw [hother hne] at hg
      exact ht.fresh e' hold g hg
  · rcases hheld row hrow with hold | ⟨rfl, hbelow⟩
    · obtain ⟨e', he', hbelow⟩ := ht.holds row hold
      by_cases htable : d.id = table
      · rw [← htable, he'] at he
        cases he
        exact ⟨_, by rw [hget, if_pos htable], hbelow.mono (hself htable.symm).1⟩
      · exact ⟨e', by rw [hget, if_neg htable]; exact he', hbelow⟩
    · exact ⟨_, by rw [hget, if_pos rfl], hbelow⟩

/-- An insert. -/
theorem CounterInv.counted (ht : CounterInv st₀ d i c defs vals held h) (hn : h.all.length ≤ 2 ^ 63)
    (hc : d.columns[i]? = some c) (ha : c.autoInc = true) {table : UInt64} {row : Row} {e : TableDef} {next : UInt64}
    (hrow : table = d.id → RowGiven d h.all row) (he : defs.get table = some e)
    (htold : table = d.id → ∀ v x, row[i]? = some (some v) → v.intValue = some x → 0 < x →
      c.qtype.isWide = true ∨ x < e.autoIncNext.toNat)
    (hb : bumpAutoInc row 0 e.columns e.autoIncNext = .ok next)
    (hheld : ∀ r, held' r → held r ∨ (table = d.id ∧ r = row)) :
    CounterInv st₀ d i c (defs.insert table { e with autoIncNext := next }) vals held' h := by
  -- what the switch makes of the row
  have hcovers : table = d.id → e.autoIncNext.toNat ≤ next.toNat ∧ next.toNat ≤ 2 ^ 63 - 1 + h.all.length ∧
      ∀ (j : ℕ) (c : ColDef) (v : GoVal), d.columns[j]? = some c → c.autoInc = true → row[j]? = some (some v) →
        explicitAutoInc v ≠ 0 → (explicitAutoInc v).toNat < next.toNat := by
    rintro rfl
    have hgiven := hrow rfl
    obtain ⟨-, -, hcols, -, -⟩ := TableDef.persistent_fields (ht.defn e he)
    have hcov := bumpAutoInc_covers (B := 2 ^ 63 - 1 + h.all.length) (by omega) hb (ht.counter e he).2 ?_
    · simp only [Nat.zero_add] at hcov
      rw [hcols] at hcov
      exact hcov
    · intro j c' v hc' ha' hv
      rw [Nat.zero_add] at hv
      rw [hcols] at hc'
      by_cases hne : explicitAutoInc v = 0
      · rw [hne]
        show 0 < _
        omega
      · rcases hgiven.value j c' v _ hc' ha' hv (intValue_of_explicitAutoInc hne) with hx | ⟨g, hg, hx⟩
        · omega
        · have := ht.generated g hg
          omega
  refine ht.raised he le_rfl ht.generated rfl (fun htable => ?_) (fun _ => rfl) fun r hr => ?_
  · obtain ⟨hup, hbound, -⟩ := hcovers htable
    refine ⟨hup, hbound, fun g hg => ?_⟩
    exact (ht.fresh e (htable ▸ he) g hg).trans_le hup
  · rcases hheld r hr with hold | ⟨htable, rfl⟩
    · exact .inl hold
    · obtain ⟨hup, -, hcov⟩ := hcovers htable
      have hgiven := hrow htable
      refine .inr ⟨htable, fun v hv => hgiven.typed i c v hc ha hv, fun v x hv hx => ?_, hgiven.short⟩
      have hpos := storedCounter_pos vals d.id
      have hle := (ht.counter e (htable ▸ he)).1
      by_cases hx0 : 0 < x
      · rcases htold htable v x hv hx hx0 with hw | hlt
        · have hval := explicitAutoInc_of_wide hw (hgiven.typed i c v hc ha hv) hx hx0
          have hne : explicitAutoInc v ≠ 0 := by
            intro h0
            rw [h0] at hval
            exact hx0.ne hval
          have := hcov i c v hc ha hv hne
          omega
        · omega
      · omega

/-- A commit of buffers. -/
theorem CounterOk.wrote (ht : CounterOk st₀ d i c w h) (hauto : d.hasAutoInc = true) {tts : List (UInt64 × TableTxn)}
    {ops : List Op} (hbatch : BatchOf w.store tts ops) (hnodup : (tts.map Prod.fst).Nodup)
    (hfrom : ∀ tt pk p row, (d.id, tt) ∈ tts → tt.get pk = some p → p.new = some row → w.Holds d.id row) :
    CounterInv st₀ d i c w.store.defs (w.store.led.put ops).vals (w.Holds d.id) h := by
  have hget : ∀ key : SqlKey, (w.store.led.put ops).vals.get key.bytes = (writeOps w.store.led.vals ops).get key.bytes :=
    fun key => MapLedger.put_get _ _ key.bytes_ne_history
  generalize (w.store.led.put ops).vals = vals' at hget ⊢
  set old := storedCounter w.store.led.vals d.id with hold
  -- the stored counter afterwards: that in memory when the table is in the batch, and then the rows are below it
  have hcounter : (storedCounter vals' d.id = old ∧ d.id ∉ tts.map Prod.fst) ∨
      ∃ e, w.store.defs.get d.id = some e ∧ storedCounter vals' d.id = e.autoIncNext := by
    by_cases hid : d.id ∈ tts.map Prod.fst
    · obtain ⟨t, hmem, heq⟩ := List.mem_map.1 hid
      obtain ⟨e, -, he, -, -⟩ := hbatch.built t hmem
      rw [heq] at he
      obtain ⟨-, -, hcols, -, -⟩ := TableDef.persistent_fields (ht.defn e he)
      have hauto' : e.hasAutoInc = true := by
        unfold TableDef.hasAutoInc at hauto ⊢
        rw [hcols]
        exact hauto
      have hkey := hbatch.get_counter w.store.led.vals ht.own he hauto'
      rw [if_pos hid, ← hget] at hkey
      have hpos := storedCounter_pos w.store.led.vals d.id
      exact .inr ⟨e, he, storedCounter_payload (by have := (ht.counter e he).1; omega) hkey⟩
    · refine .inl ⟨?_, hid⟩
      have hkey : vals'.get (SqlKey.counter d.id).bytes = w.store.led.vals.get (SqlKey.counter d.id).bytes := by
        rw [hget]
        refine get_writeOps_of_notin fun op hop he => ?_
        obtain ⟨t, hmem, e, hdt, hk | ⟨f, -, hk⟩⟩ := hbatch.keys op hop
        · have hidt : d.id = e.id := SqlKey.counter.inj (SqlKey.bytes_inj (he.symm.trans hk))
          rw [ht.own _ _ hdt] at hidt
          exact hid (hidt ▸ List.mem_map_of_mem hmem)
        · exact absurd (SqlKey.bytes_inj (he.symm.trans hk)) (by simp)
      rw [hold]
      unfold storedCounter
      rw [hkey]
  have hupper : ∀ e, w.store.defs.get d.id = some e → (storedCounter vals' d.id).toNat ≤ e.autoIncNext.toNat := by
    intro e he
    rcases hcounter with ⟨hsame, -⟩ | ⟨e', he', hnew⟩
    · rw [hsame]
      exact (ht.counter e he).1
    · rw [he] at he'
      cases he'
      rw [hnew]
  have hmono : old.toNat ≤ (storedCounter vals' d.id).toNat ∧
      (storedCounter vals' d.id).toNat ≤ 2 ^ 63 - 1 + h.all.length := by
    rcases hcounter with ⟨hsame, -⟩ | ⟨e, he, hnew⟩
    · rw [hsame]
      exact ⟨le_rfl, ht.stored⟩
    · rw [hnew]
      exact ht.counter e he
  refine ⟨ht.own, fun key hc hr => ?_, ht.defn, ht.generated, hmono.2, fun e he => ⟨hupper e he, (ht.counter e he).2⟩,
    ht.fresh, fun x hx => (ht.committed x hx).trans_le (by exact_mod_cast hmono.1), fun pk raw hraw => ?_, ht.holds⟩
  · rw [hget, hbatch.get_catalog w.store.led.vals hc hr]
    exact ht.keys key hc hr
  · -- a row that was there before
    have hbefore : w.store.led.vals.get (SqlKey.row d.id pk).bytes = some raw → ∃ row data,
        encodeRow d.columns row = .ok data ∧ raw = rowPayload d.id data ∧
          RowBelow d i c (storedCounter vals' d.id) row := by
      intro hraw'
      obtain ⟨row, data, henc, hpay, hbelow⟩ := ht.rows pk raw hraw'
      exact ⟨row, data, henc, hpay, hbelow.mono hmono.1⟩
    rw [hget] at hraw
    by_cases hbuf : ∃ tt p, (d.id, tt) ∈ tts ∧ tt.get pk = some p
    · obtain ⟨tt, p, hmem, hp⟩ := hbuf
      obtain ⟨e, -, he, -, -⟩ := hbatch.built _ hmem
      have hin : d.id ∈ tts.map Prod.fst := List.mem_map_of_mem hmem
      have hnew : storedCounter vals' d.id = e.autoIncNext := by
        rcases hcounter with ⟨-, hnot⟩ | ⟨e', he', hnew⟩
        · exact absurd hin hnot
        · rw [he] at he'
          cases he'
          exact hnew
      obtain ⟨hid, -, hcols, -, -⟩ := TableDef.persistent_fields (ht.defn e he)
      have hwrites := hbatch.get_row w.store.led.vals ht.own hnodup hmem hp he
      rw [hraw] at hwrites
      obtain ⟨pold, pnew⟩ := p
      cases pnew with
      | none =>
        cases pold with
        | none => exact hbefore hwrites.symm
        | some r => cases hwrites
      | some row =>
        obtain ⟨data, henc, hpay⟩ := hwrites
        rw [hcols] at henc
        rw [hid] at hpay
        obtain ⟨e', he', hbelow⟩ := ht.holds row (hfrom tt pk _ row hmem hp rfl)
        rw [he] at he'
        cases he'
        exact ⟨row, data, henc, Option.some.inj hpay, by rw [hnew]; exact hbelow⟩
    · rw [hbatch.get_row_of_notin w.store.led.vals ht.own fun tt hmem => ?_] at hraw
      · exact hbefore hraw
      · cases hp : tt.get pk with
        | none => rfl
        | some p => exact absurd ⟨tt, p, hmem, hp⟩ hbuf

/-- **A call that is neither a generation nor a reopening.** -/
theorem CounterOk.plain (ht : CounterOk st₀ d i c w h) (hn : h.all.length ≤ 2 ^ 63) (hc : d.columns[i]? = some c)
    (ha : c.autoInc = true) (hauto : d.hasAutoInc = true) {e : Event}
    (hrow : ∀ table row, e = .insert table row → table = d.id → RowGiven d h.all row)
    (htold : Told d i (w, h) (n, e)) (heff : Effect d.id w e w') : CounterOk st₀ d i c w' h := by
  unfold CounterOk
  cases heff with
  | quiet hdefs hvals hholds =>
    rw [hdefs, hvals]
    exact { ht with holds := fun row hrow => ht.holds row (hholds row hrow) }
  | counted hd hb hdefs hvals hholds =>
    rw [hdefs, hvals]
    refine CounterInv.counted ht hn hc ha (hrow _ _ rfl) hd (fun htable v x hv hx hpos => ?_) hb hholds
    exact (htold _ _ c v x rfl htable hc hv hx hpos).imp_right fun h => h _ (htable ▸ hd)
  | wrote hbatch hnodup hfrom hdefs hvals hholds =>
    rw [hdefs, hvals]
    exact { ht.wrote hauto hbatch hnodup hfrom with holds := fun row hrow => ht.holds row (hholds row hrow) }

theorem nextValue_cases (table : UInt64) (st : MapSql C ck) :
    (∃ err, getNextAutoIncrementValue table none st = .error err st) ∨ ∃ e, st.defs.get table = some e ∧
      getNextAutoIncrementValue table none st =
        .ok e.autoIncNext { st with defs := st.defs.insert table { e with autoIncNext := e.autoIncNext + 1 } } := by
  unfold getNextAutoIncrementValue
  cases he : st.defs.get table with
  | none =>
    have hrun : (defAt table : SqlM (MapLedger C ck) _) st = .error .panic st := by
      unfold defAt
      rw [run_get_bind, he]
      rfl
    exact .inl ⟨.panic, run_bind_error hrun⟩
  | some e =>
    have hrun : (defAt table : SqlM (MapLedger C ck) _) st = .ok e st := by
      unfold defAt
      rw [run_get_bind, he]
      rfl
    refine .inr ⟨e, rfl, ?_⟩
    rw [run_bind_ok hrun]
    rfl

/-- A generation: the value is the counter, which is raised. -/
theorem CounterInv.generate (ht : CounterInv st₀ d i c defs vals held h) {table : UInt64} {e : TableDef}
    (he : defs.get table = some e) (hall : h'.all = (if table = d.id then [e.autoIncNext] else []) ++ h.all)
    (hfresh : h'.fresh = (if table = d.id then [e.autoIncNext] else []) ++ h.fresh)
    (hcommitted : h'.committed = h.committed) (hn : h'.all.length ≤ 2 ^ 63) :
    CounterInv st₀ d i c (defs.insert table { e with autoIncNext := e.autoIncNext + 1 }) vals held h' := by
  by_cases htable : table = d.id
  · rw [if_pos htable] at hall hfresh
    have hlen : h'.all.length = h.all.length + 1 := by
      rw [hall]
      rfl
    have hbound := (ht.counter e (htable ▸ he)).2
    have hsucc : (e.autoIncNext + 1).toNat = e.autoIncNext.toNat + 1 := by
      rw [UInt64.toNat_add]
      exact Nat.mod_eq_of_lt (by show e.autoIncNext.toNat + 1 < 2 ^ 64; omega)
    refine ht.raised he (by omega) (fun g hg => ?_) hcommitted (fun _ => ⟨by omega, by omega, fun g hg => ?_⟩)
      (fun hne => absurd htable hne) fun row => .inl
    · rw [hall] at hg
      rcases List.mem_cons.1 hg with rfl | hg
      · omega
      · have := ht.generated g hg
        omega
    · rw [hfresh] at hg
      rcases List.mem_cons.1 hg with rfl | hg
      · omega
      · have := ht.fresh e (htable ▸ he) g hg
        omega
  · rw [if_neg htable, List.nil_append] at hall hfresh
    exact ht.raised he (by rw [hall]) (by rw [hall]; exact ht.generated) hcommitted (fun hself => absurd hself htable)
      (fun _ => hfresh) fun row => .inl

/-- **A reopening**, whether it succeeds or not: the counter is the stored one and no session holds a row. -/
theorem CounterOk.reopen (ht : CounterOk st₀ d i c w h) (hcat : CatInv G k st₀)
    (hlisted : ∃ lower, st₀.tables.get lower = some d.id) (hd : st₀.defs.get d.id = some d) (hauto : d.hasAutoInc = true) :
    CounterOk st₀ d i c (World.reopen G w).2 { h with fresh := [] } := by
  -- the catalog of the start over the ledger of now
  set st : MapSql C ck := { st₀ with led := w.store.led }
  have hst : CatInv G k st := hcat.shape ⟨rfl, fun _ => rfl, fun _ _ e _ he => ⟨e, he, rfl⟩,
    ht.keys .catalog (by simp) (by simp), fun lower => ht.keys (.table lower) (by simp) (by simp)⟩
  obtain ⟨s₁, hload, hled, -, -, hdefs, hother⟩ := hst.loads
  obtain ⟨s₂, hload', -, -, hsameDefs, hsameVals⟩ := hst.opens
  obtain rfl : s₁ = s₂ := (EStateM.Result.ok.inj (hload.symm.trans hload')).2
  have hown : ∀ a e, s₁.defs.get a = some e → e.id = a := by
    intro a e he
    by_cases ha : ∃ lower, st.tables.get lower = some a
    · obtain ⟨lower, hl⟩ := ha
      obtain ⟨e₀, he₀, hid, -, -⟩ := hst.defs lower a hl
      obtain ⟨e₁, he₁, hper, -⟩ := hdefs lower a e₀ hl he₀
      rw [he] at he₁
      cases he₁
      rw [(TableDef.persistent_fields hper).1, hid]
    · rw [hother a fun lower hl => ha ⟨lower, hl⟩] at he
      cases he
  have hdefn : ∀ e, s₁.defs.get d.id = some e →
      e.persistent = d.persistent ∧ e.autoIncNext = storedCounter w.store.led.vals d.id := by
    intro e he
    obtain ⟨lower, hl⟩ := hlisted
    obtain ⟨e₁, he₁, hper, hcount⟩ := hdefs lower d.id d hl hd
    rw [he] at he₁
    cases he₁
    exact ⟨hper, hcount hauto⟩
  have hvals : (openSql G w.store.led).state.led.vals = w.store.led.vals := by
    rw [show w.store.led = st.led from rfl, hsameVals, hled]
  have hdefs' : (openSql G w.store.led).state.defs = s₁.defs := hsameDefs
  unfold CounterOk World.reopen
  cases hopen : openSql G w.store.led with
  | ok u s =>
    rw [hopen] at hvals hdefs'
    show CounterInv st₀ d i c s.defs s.led.vals _ _
    rw [show s.defs = s₁.defs from hdefs', show s.led.vals = _ from hvals]
    refine { ht with
      own := hown, defn := fun e he => (hdefn e he).1, counter := fun e he => ?_, fresh := fun _ _ g hg => ?_, holds := ?_ }
    · rw [(hdefn e he).2]
      exact ⟨le_rfl, ht.stored⟩
    · cases hg
    · exact fun row hrow => absurd hrow.choose_spec (not_holds_idle row)
  | error err s =>
    rw [hopen] at hvals
    show CounterInv st₀ d i c OrdMap.empty s.led.vals _ _
    rw [show s.led.vals = _ from hvals]
    refine { ht with
      own := fun a e he => ?_, defn := fun e he => ?_, counter := fun e he => ?_, fresh := fun e he => ?_, holds := ?_ }
    · cases he
    · cases he
    · cases he
    · cases he
    · exact fun row hrow => absurd hrow.choose_spec (not_holds_idle row)

/-- The history takes in the rows that are stored now: each of their values is below the stored counter. -/
theorem CounterOk.observed (ht : CounterOk st₀ d i c w h) (hc : d.columns[i]? = some c) (hw : c.qtype.isInteger = true) :
    CounterOk st₀ d i c w { h with committed := h.committed ∪ {x | StoredValue G d i w.store.led.vals x} } := by
  refine { ht with committed := fun x hx => ?_ }
  rcases hx with hx | ⟨pk, raw, row', v, hraw, hdec, hv, hvx⟩
  · exact ht.committed x hx
  · obtain ⟨row, data, henc, rfl, hbelow⟩ := ht.rows pk raw hraw
    rw [drop_payload] at hdec
    obtain ⟨row'', hreads⟩ := @rowReads_of_encodeRow G.round32 _ _ _ henc
    obtain ⟨data', henc', hdec'⟩ := hreads.decodeRow
    obtain rfl : data = data' := Except.ok.inj (henc.symm.trans henc')
    obtain rfl : row' = row'' := Except.ok.inj (hdec.symm.trans (hdec' (hbelow.short data henc)))
    obtain ⟨v₀, hv₀, hread⟩ := hreads.get hc hv
    have htyped := hbelow.typed v₀ hv₀
    obtain ⟨kind, hkind, hs, hb⟩ := kind_of_isInteger hw
    have heq : v = v₀.stored := hread.unique hkind hs hb (readsBack_of_hasType htyped)
    rw [heq, stored_of_isInteger hw htyped] at hvx
    exact hbelow.below v₀ x hv₀ hvx

end

/-! ## Runs -/

/-- A table just created: it is catalogued, its counter is 1, nothing is stored for it, and no session holds a row of it. -/
structure NewTable (G : GoLib) (k : ℕ) (d : TableDef) (w : World (MapLedger C ck)) : Prop where
  cat : CatInv G k w.store
  own : OwnIds w.store
  listed : ∃ lower, w.store.tables.get lower = some d.id
  here : w.store.defs.get d.id = some d
  first : d.autoIncNext = 1
  noCounter : w.store.led.vals.get (SqlKey.counter d.id).bytes = none
  noRow : ∀ pk, w.store.led.vals.get (SqlKey.row d.id pk).bytes = none
  idle : ∀ row, ¬ w.Holds d.id row

section
variable {w₀ : World (MapLedger C ck)} {c : ColDef}

theorem NewTable.counterOk (h : NewTable G k d w₀) : CounterOk w₀.store d i c w₀ {} := by
  have hstored : storedCounter w₀.store.led.vals d.id = 1 := by
    unfold storedCounter
    rw [h.noCounter]
  have hdef : ∀ e, w₀.store.defs.get d.id = some e → e = d := fun e he => Option.some.inj (he.symm.trans h.here)
  refine ⟨h.own, fun _ _ _ => rfl, ?_, fun g hg => absurd hg List.not_mem_nil, ?_, ?_,
    fun _ _ g hg => absurd hg List.not_mem_nil, fun x hx => absurd hx (Set.notMem_empty x), ?_,
    fun row hrow => absurd hrow (h.idle row)⟩
  · intro e he
    rw [hdef e he]
  · rw [hstored]
    decide
  · intro e he
    rw [hdef e he, hstored, h.first]
    decide
  · intro pk raw hraw
    rw [h.noRow pk] at hraw
    cases hraw

theorem hasAutoInc_of_column (hc : d.columns[i]? = some c) (ha : c.autoInc = true) : d.hasAutoInc = true :=
  List.any_eq_true.2 ⟨c, List.mem_of_getElem? hc, ha⟩

theorem newTableDef_first {id : UInt64} {name comment : Bytes} {schema : PrimaryKeySchema}
    (hd : newTableDef id name schema comment = .ok d) (ha : d.hasAutoInc = true) : d.autoIncNext = 1 := by
  unfold newTableDef at hd
  obtain ⟨columns, -, hd₁⟩ := Except.ok_of_bind hd
  have heq := Except.ok.inj hd₁
  split at heq
  · rw [← heq]
  · rename_i hnone
    rw [← heq] at ha
    exact absurd ha hnone

/-- **`createTable` makes a new table**, on a store that has nothing under the next table id. -/
theorem newTable_of_createTable {st st' : MapSql C ck} (hG : G.Ok) (hk : k + 1 < 2 ^ 64) (hcat : CatInv G k st)
    (hown : OwnIds st) (hcounter : st.led.vals.get (SqlKey.counter st.catMeta.nextTableID).bytes = none)
    (hrow : ∀ pk, st.led.vals.get (SqlKey.row st.catMeta.nextTableID pk).bytes = none) {name comment : Bytes}
    {schema : PrimaryKeySchema} (hd : newTableDef st.catMeta.nextTableID name schema comment = .ok d)
    (ha : d.hasAutoInc = true) (hrun : createTable G name schema comment st = .ok () st') :
    NewTable G (k + 1) d ⟨st', fun _ => {}⟩ := by
  have hcat' := hcat.after_createTable hG hk hrun
  obtain ⟨_, _, _, s₁, ⟨-, d', hd', rfl, rfl, rfl⟩, hcommit, rfl⟩ := (createTable_run name comment schema).ok hrun
  obtain rfl : d = d' := Except.ok.inj (hd.symm.trans hd')
  obtain ⟨hid, -, -⟩ := newTableDef_ok hd
  have hdefs : ∀ a, (st.defs.insert d.id d).get a = if a = d.id then some d else st.defs.get a := by
    intro a
    rw [OrdMap.get_insert]
    congr
  have hkeep : ∀ key : SqlKey, (∀ lower, key ≠ .table lower) → key ≠ .catalog →
      s₁.led.vals.get key.bytes = st.led.vals.get key.bytes := by
    intro key htable hcatalog
    rw [commit_get hcommit, get_catalogOps, if_neg (htable _), if_neg hcatalog]
  obtain rfl := commit_ok hcommit
  refine ⟨hcat', ?_, ⟨G.toLower name, ?_⟩, ?_, newTableDef_first hd ha, ?_, ?_, ?_⟩
  · intro a e he
    rw [hdefs] at he
    split at he
    · rename_i ha'
      cases he
      exact ha'.symm
    · exact hown a e he
  · exact (OrdMap.get_insert _ _ _ _).trans (if_pos rfl)
  · exact (hdefs d.id).trans (if_pos rfl)
  · rw [hid]
    exact (hkeep _ (by simp) (by simp)).trans hcounter
  · intro pk
    rw [hid]
    exact (hkeep _ (by simp) (by simp)).trans (hrow pk)
  · exact fun row hrow => absurd hrow.choose_spec (not_holds_idle row)

/-- The history after a call that is neither a generation nor a reopening. -/
theorem after_plain {h : History} {e : Event} (he : e.isPlain = true) (r : Except SqlErr SessionReply)
    (vals : OrdMap Bytes Bytes) :
    h.after G d i e r vals = { h with committed := h.committed ∪ {x | StoredValue G d i vals x} } := by
  cases e with
  | update _ _ _ => cases he
  | delete _ _ => cases he
  | nextValue _ _ => cases he
  | setValue _ _ => cases he
  | reopen => cases he
  | _ => rfl

/-- The values ever generated only grow. -/
theorem length_all_le (s : World (MapLedger C ck) × History) (call : ℕ × Event) :
    s.2.all.length ≤ (watched G d i s call).2.2.all.length := by
  show _ ≤ (generatedBy d.id call.2 _ ++ s.2.all).length
  rw [List.length_append]
  omega

/-- **One call keeps the invariant**, as long as at most `2^63` values have been generated. -/
theorem CounterOk.step (hnew : NewTable G k d w₀) (hc : d.columns[i]? = some c) (ha : c.autoInc = true)
    (hw : c.qtype.isInteger = true) {s : World (MapLedger C ck) × History} {call : ℕ × Event}
    (hperm : Permitted d s call) (htold : Told d i s call)
    (hs : s.2.all.length ≤ 2 ^ 63 → CounterOk w₀.store d i c s.1 s.2)
    (hn : (watched G d i s call).2.2.all.length ≤ 2 ^ 63) :
    CounterOk w₀.store d i c (watched G d i s call).2.1 (watched G d i s call).2.2 := by
  have hn₀ : s.2.all.length ≤ 2 ^ 63 := (length_all_le s call).trans hn
  have ht := hs hn₀
  have hauto := hasAutoInc_of_column hc ha
  obtain ⟨w, h⟩ := s
  by_cases hplain : call.2.isPlain = true
  · have hstep : CounterOk w₀.store d i c (World.step G w call).2 h := by
      refine ht.plain hn₀ hc ha hauto (fun table row he => ?_) htold (step_effect call hplain)
      unfold Permitted at hperm
      rw [he] at hperm
      exact hperm
    show CounterOk w₀.store d i c (World.step G w call).2
      (h.after G d i call.2 (World.step G w call).1 (World.step G w call).2.store.led.vals)
    rw [after_plain hplain]
    exact hstep.observed hc hw
  · obtain ⟨n, e⟩ := call
    cases e with
    | nextValue table v =>
      obtain rfl : v = none := hperm
      have hstep : World.step G w (n, .nextValue table none) =
          ((getNextAutoIncrementValue table none w.store).val.map SessionReply.value,
            { w with store := (getNextAutoIncrementValue table none w.store).state }) := rfl
      show CounterOk w₀.store d i c (World.step G w (n, .nextValue table none)).2 (h.after G d i (.nextValue table none)
        (World.step G w (n, .nextValue table none)).1 (World.step G w (n, .nextValue table none)).2.store.led.vals)
      rcases nextValue_cases table w.store with ⟨err, hrun⟩ | ⟨e, he, hrun⟩
      · rw [hstep, hrun]
        exact ht.observed hc hw
      · set w' : World (MapLedger C ck) := { w with store :=
          { w.store with defs := w.store.defs.insert table { e with autoIncNext := e.autoIncNext + 1 } } } with hw'
        rw [hrun] at hstep
        set made := if table = d.id then [e.autoIncNext] else []
        have hgen : CounterOk w₀.store d i c w' { h with fresh := made ++ h.fresh, all := made ++ h.all } := by
          refine CounterInv.generate ht he rfl rfl rfl ?_
          have hlen : (watched G d i (w, h) (n, .nextValue table none)).2.2.all.length = (made ++ h.all).length := by
            show (generatedBy d.id (.nextValue table none) (World.step G w (n, .nextValue table none)).1 ++ h.all).length = _
            rw [hstep]
            rfl
          rw [hlen] at hn
          exact hn
        rw [hstep]
        exact hgen.observed hc hw
    | reopen => exact (ht.reopen hnew.cat hnew.listed hnew.here hauto).observed hc hw
    | update _ _ _ | delete _ _ | setValue _ _ => exact absurd hperm not_false
    | _ => exact absurd rfl hplain

/-- **The invariant along a run.** -/
theorem CounterOk.run (hnew : NewTable G k d w₀) (hc : d.columns[i]? = some c) (ha : c.autoInc = true)
    (hw : c.qtype.isInteger = true) {cs : List (ℕ × Event)}
    (hcs : Along (watched G d i) (fun s call => Permitted d s call ∧ Told d i s call) (w₀, {}) cs) :
    (Machine.run (watched G d i) (w₀, {}) cs).2.2.all.length ≤ 2 ^ 63 →
      CounterOk w₀.store d i c (Machine.run (watched G d i) (w₀, {}) cs).2.1
        (Machine.run (watched G d i) (w₀, {}) cs).2.2 :=
  invariant (I := fun s : World (MapLedger C ck) × History =>
      s.2.all.length ≤ 2 ^ 63 → CounterOk w₀.store d i c s.1 s.2)
    (fun _ _ hs hperm hn => CounterOk.step hnew hc ha hw hperm.1 hperm.2 hs hn) (fun _ => hnew.counterOk) hcs

/-- **A generated value is new**: above all values generated since the last opening and all positive values ever committed
in the column, after every run on a new table in which each positive value that is inserted is of a column of 24 bits or
more or below the counter, and at most `2^63` values are generated. -/
theorem autoInc_fresh (hnew : NewTable G k d w₀) (hc : d.columns[i]? = some c) (ha : c.autoInc = true)
    (hw : c.qtype.isInteger = true) {cs : List (ℕ × Event)}
    (hcs : Along (watched G d i) (fun s call => Permitted d s call ∧ Told d i s call) (w₀, {}) cs) :
    let s := (Machine.run (watched G d i) (w₀, {}) cs).2
    s.2.all.length ≤ 2 ^ 63 → ∀ n v, (watched G d i s (n, .nextValue d.id none)).1 = .ok (.value v) → s.2.Above v := by
  intro s hcount n v hv
  have ht := CounterOk.run hnew hc ha hw hcs hcount
  -- the value is the counter
  have hreply : (getNextAutoIncrementValue d.id none s.1.store).val.map SessionReply.value = .ok (.value v) := hv
  rcases nextValue_cases d.id s.1.store with ⟨err, hrun⟩ | ⟨e, he, hrun⟩
  · rw [hrun] at hreply
    cases hreply
  · rw [hrun] at hreply
    obtain rfl : e.autoIncNext = v := SessionReply.value.inj (Except.ok.inj hreply)
    refine ⟨fun g hg => UInt64.lt_iff_toNat_lt.2 (ht.fresh e he g hg), fun x hx _ => ?_⟩
    have hlt := ht.committed x hx
    have hle := (ht.counter e he).1
    omega

end

/-! ## Columns of each width -/

/-- The history is beside the machine. -/
theorem run_watched (w : World (MapLedger C ck)) (h : History) (cs : List (ℕ × Event)) :
    (Machine.run (watched G d i) (w, h) cs).2.1 = (Machine.run (World.step G) w cs).2 := by
  induction cs generalizing w h with
  | nil => rfl
  | cons call cs ih => exact ih _ _

/-- A table of numbers: one `AUTO_INCREMENT` column, its primary key. -/
def numbersSchema (qt : QType) : PrimaryKeySchema := ⟨[{ name := ascii "n", qtype := qt, autoIncrement := true }], [0]⟩

def numbersDef (qt : QType) : TableDef where
  id := 1
  name := ascii "numbers"
  columns := [{ name := ascii "n", qtype := qt, autoInc := true }]
  pkOrds := [0]
  autoIncNext := 1

/-- The table just created, and no session at work. -/
def numbersWorld (qt : QType) : World (MapLedger plainCrypto []) :=
  ⟨(createTable sampleLib (ascii "numbers") (numbersSchema qt) [] (emptySql plainCrypto [])).state, fun _ => {}⟩

/-- One transaction that inserts the value. -/
def numbersRun (v : GoVal) : List (ℕ × Event) :=
  [(0, .start false), (0, .insert 1 [some v]), (0, .close 1), (0, .commit)]

section
variable {qt : QType} {v : GoVal}

theorem numbersWorld_new (hqt : qt.isInteger = true) : NewTable sampleLib 2 (numbersDef qt) (numbersWorld qt) := by
  have hcat : CatInv sampleLib 1 (emptySql plainCrypto []) := Uncatalogued.catInv ⟨rfl, rfl, rfl⟩
  have hok : (createTable sampleLib (ascii "numbers") (numbersSchema qt) [] (emptySql plainCrypto [])).val.toOption =
      some () := by
    cases qt <;> cases hqt <;> decide
  have hrun : createTable sampleLib (ascii "numbers") (numbersSchema qt) [] (emptySql plainCrypto []) =
      .ok () (numbersWorld qt).store := by
    unfold numbersWorld
    cases hres : createTable sampleLib (ascii "numbers") (numbersSchema qt) [] (emptySql plainCrypto []) with
    | ok u st => rfl
    | error e st =>
      rw [hres] at hok
      cases hok
  refine newTable_of_createTable sampleLib_ok (by decide) hcat (fun a e he => ?_) rfl (fun _ => rfl) ?_ rfl hrun
  · cases he
  · cases qt <;> cases hqt <;> rfl

theorem numbersRun_permitted {x : ℤ} (ht : v.HasType qt) (hx : v.intValue = some x) (hlt : x < 2 ^ 63 - 1)
    (hlen : ∀ data, encodeRow (numbersDef qt).columns [some v] = .ok data → data.length < 2 ^ 63) :
    Along (watched sampleLib (numbersDef qt) 0) (Permitted (numbersDef qt)) (numbersWorld qt, {}) (numbersRun v) := by
  have hcol : ∀ {j : ℕ} {c : ColDef} {u : GoVal}, (numbersDef qt).columns[j]? = some c → ([some v] : Row)[j]? = some (some u) →
      c.qtype = qt ∧ u = v := by
    intro j c u hc hu
    cases j with
    | zero =>
      cases hc
      cases hu
      exact ⟨rfl, rfl⟩
    | succ j => cases hu
  have hgiven : ∀ all, RowGiven (numbersDef qt) all [some v] := by
    refine fun all => ⟨fun j c u hc _ hu => ?_, fun j c u y hc _ hu hy => .inl ?_, hlen⟩
    · obtain ⟨hq, rfl⟩ := hcol hc hu
      rw [hq]
      exact ht
    · obtain ⟨-, rfl⟩ := hcol hc hu
      rw [hx] at hy
      cases hy
      exact hlt
  exact ⟨trivial, fun _ => hgiven _, trivial, trivial, trivial⟩

/-- A transaction that inserts 5 and the value generated next. -/
theorem numbers_generated {pk raw : Bytes} {next : UInt64}
    (hnext : ((Machine.run (World.step sampleLib) (numbersWorld qt) (numbersRun v)).2.store.defs.get 1) =
      some { numbersDef qt with autoIncNext := next })
    (hraw : (Machine.run (World.step sampleLib) (numbersWorld qt) (numbersRun v)).2.store.led.vals.get (rowKey 1 pk) =
      some raw)
    (hdec : decodeRow sampleLib.round32 (numbersDef qt).columns (raw.drop 9) = .ok [some v]) (hx : v.intValue = some 5) :
    let s := (Machine.run (watched sampleLib (numbersDef qt) 0) (numbersWorld qt, {}) (numbersRun v)).2
    (watched sampleLib (numbersDef qt) 0 s (0, .nextValue 1 none)).1 = .ok (.value next) ∧ 5 ∈ s.2.committed := by
  intro s
  have hworld : s.1 = (Machine.run (World.step sampleLib) (numbersWorld qt) (numbersRun v)).2 := run_watched _ _ _
  rw [← hworld] at hnext hraw
  refine ⟨?_, .inr ⟨pk, raw, [some v], v, hraw, hdec, rfl, hx⟩⟩
  rcases nextValue_cases 1 s.1.store with ⟨err, hrun⟩ | ⟨e, he, hrun⟩
  · unfold getNextAutoIncrementValue defAt at hrun
    rw [bind_assoc, run_get_bind, hnext] at hrun
    cases hrun
  · rw [hnext] at he
    cases he
    show (getNextAutoIncrementValue 1 none s.1.store).val.map SessionReply.value = _
    rw [hrun]
    rfl

/-- **A value that is not new.** In a column of 8 bits a committed 5 leaves the counter where it was, and the value
generated next is 1. -/
theorem autoInc_reused_narrow : NewTable sampleLib 2 (numbersDef .int8) (numbersWorld .int8) ∧
    Along (watched sampleLib (numbersDef .int8) 0) (Permitted (numbersDef .int8)) (numbersWorld .int8, {})
      (numbersRun (.int8 5)) ∧
    let s := (Machine.run (watched sampleLib (numbersDef .int8) 0) (numbersWorld .int8, {}) (numbersRun (.int8 5))).2
    (watched sampleLib (numbersDef .int8) 0 s (0, .nextValue 1 none)).1 = .ok (.value 1) ∧ 5 ∈ s.2.committed ∧
      ¬ s.2.Above 1 := by
  obtain ⟨hreply, hmem⟩ := @numbers_generated .int8 (.int8 5) (encInt64 5) (rowPayload 1 (rowPresent :: encInt64 5)) 1
    (by decide +kernel) (by decide +kernel) (by decide +kernel) rfl
  refine ⟨numbersWorld_new rfl, numbersRun_permitted trivial rfl (by decide) (fun data hdata => ?_), hreply, hmem,
    fun habove => ?_⟩
  · obtain rfl := Except.ok.inj hdata
    decide
  · exact absurd (habove.2 5 hmem (by decide)) (by decide)

/-- A column of 64 bits: after 5 is committed, 6 is generated and new. -/
theorem autoInc_fresh_int64 :
    let s := (Machine.run (watched sampleLib (numbersDef .int64) 0) (numbersWorld .int64, {}) (numbersRun (.int64 5))).2
    5 ∈ s.2.committed ∧ s.2.Above 6 := by
  intro s
  obtain ⟨hreply, hmem⟩ := @numbers_generated .int64 (.int64 5) (encInt64 5) (rowPayload 1 (rowPresent :: encInt64 5)) 6
    (by decide +kernel) (by decide +kernel) (by decide +kernel) rfl
  have hperm := @numbersRun_permitted .int64 (.int64 5) 5 trivial rfl (by decide) (fun data hdata => by
    obtain rfl := Except.ok.inj hdata
    decide)
  have htold : Along (watched sampleLib (numbersDef .int64) 0) (Told (numbersDef .int64) 0) (numbersWorld .int64, {})
      (numbersRun (.int64 5)) := by
    refine (along_true _ _).mono fun s call _ _ table row col v x _ _ hcol _ _ _ => .inl ?_
    obtain rfl := Option.some.inj hcol
    rfl
  exact ⟨hmem, autoInc_fresh (numbersWorld_new rfl) (i := 0) rfl rfl rfl (hperm.and htold) (by decide +kernel) 0 6 hreply⟩

end

end ImmutableLedger
