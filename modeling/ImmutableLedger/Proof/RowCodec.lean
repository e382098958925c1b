import ImmutableLedger.Proof.IndexOrder

/-!
# Stored rows

Decoding a stored row, against encoding it and on arbitrary bytes.

A time is stored as its nanoseconds since the epoch in 64 bits, which reach from 1677 to 2262. A time outside comes back
as another one.

The bound of a length-framed value is computed in 64 bits before it is compared with the end of the row. A length near
`2^63` or above wraps it, passes the comparison and makes the slice panic.

* `decodeRow_of_encodeRow`: what decoding an encoded row gives.
* `row_roundtrip_iff`: it is the row exactly when its times fit.
* `decode_safe_iff`: decoding does not panic exactly when no length it reads wraps the bound.
-/

namespace ImmutableLedger

variable {round32 : UInt64 → UInt64}

/-! ## Typed rows -/

/-- The value has the Go type of a column of type `qt`, floats aside. -/
def GoVal.HasType : QType → GoVal → Prop
  | .int8, .int8 _ => True
  | .int16, .int16 _ => True
  | .int24, .int32 _ => True
  | .int32, .int32 _ => True
  | .int64, .int64 _ => True
  | .uint8, .uint8 _ => True
  | .uint16, .uint16 _ => True
  | .uint24, .uint32 _ => True
  | .uint32, .uint32 _ => True
  | .uint64, .uint64 _ => True
  | .char, .string _ => True
  | .varchar, .string _ => True
  | .text, .string _ => True
  | .binary, .bytes _ => True
  | .varbinary, .bytes _ => True
  | .blob, .bytes _ => True
  | .datetime, .time _ => True
  | .timestamp, .time _ => True
  | _, _ => False

/-- Every value of the row, NULLs aside, has the Go type of its column. -/
def RowTyped (cols : List ColDef) (row : Row) : Prop :=
  List.Forall₂ (fun c o => ∀ v ∈ o, GoVal.HasType c.qtype v) cols row

/-- What a value comes back as: a time wraps to 64-bit nanoseconds. -/
def GoVal.stored : GoVal → GoVal
  | .time ns => .time (unixNano ns).toInt
  | v => v

/-! ## One value -/

@[simp] theorem length_encInt64 (v : Int64) : (encInt64 v).length = 8 := Bytes.length_u64 _

theorem decInt64_encInt64 (v : Int64) : decInt64 (encInt64 v) = v := by
  unfold decInt64 encInt64
  rw [Bytes.toU64_u64, UInt64.xor_assoc, UInt64.xor_self, UInt64.xor_zero]
  rfl

variable {kind : ColKind} {v : GoVal}

section
variable {c : ColDef} {pre raw rest s : Bytes}

theorem decodeField_fixed (hk : c.kind = .ok kind) (hstring : kind ≠ .string) (hbytes : kind ≠ .bytes)
    (hraw : raw.length = 8) : decodeField round32 c (pre ++ (raw ++ rest)) pre.length =
      .ok (decodeFixed round32 c.qtype raw kind, pre.length + 8) := by
  have hdrop : (pre ++ (raw ++ rest)).drop pre.length = raw ++ rest := List.drop_left
  have htake : (raw ++ rest).take 8 = raw := by
    rw [← hraw]
    exact List.take_left
  have hlen : ¬ pre.length + 8 > (pre ++ (raw ++ rest)).length := by
    rw [List.length_append, List.length_append, hraw]
    omega
  cases kind <;> first | exact absurd rfl hstring | exact absurd rfl hbytes | skip
  all_goals
    unfold decodeField
    rw [hk]
    show (if pre.length + 8 > _ then _ else _) = _
    rw [if_neg hlen, hdrop, htake]

/-- A bound that does not wrap. -/
theorem toInt_ofInt_of_lt {n : ℕ} (h : n < 2 ^ 63) : (Int64.ofInt n).toInt = n :=
  Int64.toInt_ofInt_of_le (by omega) (by exact_mod_cast h)

/-- A framed string is read back, whatever stands around it. -/
theorem decodeFramed_frame
    (hlen : (pre ++ (Bytes.putUvarint (UInt64.ofNat s.length) ++ s ++ rest)).length < 2 ^ 63) :
    decodeFramed c (pre ++ (Bytes.putUvarint (UInt64.ofNat s.length) ++ s ++ rest)) pre.length =
      .ok (s, pre.length + (Bytes.putUvarint (UInt64.ofNat s.length) ++ s).length) := by
  set head := Bytes.putUvarint (UInt64.ofNat s.length) with hhead
  have hlens : (pre ++ (head ++ s ++ rest)).length = pre.length + (head.length + s.length + rest.length) := by
    rw [List.length_append, List.length_append, List.length_append]
  have hn : (UInt64.ofNat s.length).toNat = s.length := by
    rw [UInt64.toNat_ofNat']
    omega
  have hread : Bytes.uvarint ((pre ++ (head ++ s ++ rest)).drop pre.length) = some (s.length, head.length) := by
    rw [List.drop_left, List.append_assoc, hhead, Bytes.uvarint_putUvarint, hn]
  have hstop : (Int64.ofInt (pre.length + head.length + s.length)).toInt = pre.length + head.length + s.length := by
    have h := @toInt_ofInt_of_lt (pre.length + head.length + s.length) (by omega)
    push_cast at h
    exact h
  have hslice : ((pre ++ (head ++ s ++ rest)).drop (pre.length + head.length)).take s.length = s := by
    rw [← List.drop_drop, List.drop_left, List.append_assoc, List.drop_left]
    exact List.take_left
  unfold decodeFramed
  rw [hread]
  dsimp only
  rw [hstop, if_neg (by omega), if_neg (by omega), hslice, List.length_append, Nat.add_assoc]

theorem decodeField_framed {f : Bytes → GoVal} (hk : c.kind = .ok kind)
    (hf : kind = .string ∧ f = .string ∨ kind = .bytes ∧ f = .bytes)
    (hlen : (pre ++ (Bytes.putUvarint (UInt64.ofNat s.length) ++ s ++ rest)).length < 2 ^ 63) :
    decodeField round32 c (pre ++ (Bytes.putUvarint (UInt64.ofNat s.length) ++ s ++ rest)) pre.length =
      .ok (f s, pre.length + (Bytes.putUvarint (UInt64.ofNat s.length) ++ s).length) := by
  unfold decodeField
  rw [hk]
  rcases hf with ⟨rfl, rfl⟩ | ⟨rfl, rfl⟩
  all_goals
    show (decodeFramed c _ _ >>= _) = _
    rw [decodeFramed_frame hlen]
    rfl

/-- A value that is read back as `w`, whatever stands around it. -/
def FieldReads (round32 : UInt64 → UInt64) (c : ColDef) (v w : GoVal) : Prop :=
  ∃ kind x, c.kind = .ok kind ∧ coerce kind v = .ok x ∧ ∀ pre rest : Bytes, (pre ++ (x.field ++ rest)).length < 2 ^ 63 →
    decodeField round32 c (pre ++ (x.field ++ rest)) pre.length = .ok (w, pre.length + x.field.length)

/-- A value that is read back as its stored form. -/
def ReadsBack (round32 : UInt64 → UInt64) (c : ColDef) (v : GoVal) : Prop := FieldReads round32 c v v.stored

theorem readsBack_fixed {x : Scalar} (hk : c.kind = .ok kind) (hx : coerce kind v = .ok x)
    (hs : kind ≠ .string) (hb : kind ≠ .bytes) (hlen : x.field.length = 8)
    (hdec : decodeFixed round32 c.qtype x.field kind = v.stored) : ReadsBack round32 c v := by
  refine ⟨kind, x, hk, hx, fun pre rest _ => ?_⟩
  rw [decodeField_fixed hk hs hb hlen, hlen, hdec]

theorem readsBack_int {x : Int64} (hk : c.kind = .ok .int) (hx : coerce .int v = .ok (.int x))
    (hdec : narrowInt c.qtype x = v.stored) : ReadsBack round32 c v := by
  refine readsBack_fixed hk hx (by decide) (by decide) (length_encInt64 x) ?_
  show narrowInt c.qtype (decInt64 (encInt64 x)) = _
  rw [decInt64_encInt64, hdec]

theorem readsBack_uint {x : UInt64} (hk : c.kind = .ok .uint) (hx : coerce .uint v = .ok (.uint x))
    (hdec : narrowUint c.qtype x = v.stored) : ReadsBack round32 c v := by
  refine readsBack_fixed hk hx (by decide) (by decide) (Bytes.length_u64 x) ?_
  show narrowUint c.qtype (Bytes.toU64 (Bytes.u64 x)) = _
  rw [Bytes.toU64_u64, hdec]

theorem readsBack_time {ns : ℤ} (hk : c.kind = .ok .datetime) : ReadsBack round32 c (.time ns) := by
  refine readsBack_fixed hk rfl (by decide) (by decide) (length_encInt64 _) ?_
  show GoVal.time (decInt64 (encInt64 (unixNano ns))).toInt = _
  rw [decInt64_encInt64]
  rfl

theorem readsBack_framed {f : Bytes → GoVal} {s : Bytes} (hk : c.kind = .ok kind)
    (hf : kind = .string ∧ f = .string ∨ kind = .bytes ∧ f = .bytes) : ReadsBack round32 c (f s) := by
  have hx : coerce kind (f s) = .ok (.str s) := by rcases hf with ⟨rfl, rfl⟩ | ⟨rfl, rfl⟩ <;> rfl
  have hst : (f s).stored = f s := by rcases hf with ⟨-, rfl⟩ | ⟨-, rfl⟩ <;> rfl
  refine ⟨kind, .str s, hk, hx, fun pre rest hlen => ?_⟩
  rw [hst]
  exact decodeField_framed hk hf hlen

/-- **Every value of its column's Go type is read back** as its stored form. -/
theorem readsBack_of_hasType (h : v.HasType c.qtype) : ReadsBack round32 c v := by
  obtain ⟨name, qt, length, precision, nullable, autoInc⟩ := c
  cases qt <;> cases v <;> first | exact absurd h not_false | skip
  case int8.int8 x => exact readsBack_int rfl rfl (congrArg GoVal.int8 (Int8.toInt8_toInt64 x))
  case int16.int16 x => exact readsBack_int rfl rfl (congrArg GoVal.int16 (Int16.toInt16_toInt64 x))
  case int24.int32 x => exact readsBack_int rfl rfl (congrArg GoVal.int32 (Int32.toInt32_toInt64 x))
  case int32.int32 x => exact readsBack_int rfl rfl (congrArg GoVal.int32 (Int32.toInt32_toInt64 x))
  case int64.int64 x => exact readsBack_int rfl rfl rfl
  case uint8.uint8 x => exact readsBack_uint rfl rfl (congrArg GoVal.uint8 (UInt8.toUInt8_toUInt64 x))
  case uint16.uint16 x => exact readsBack_uint rfl rfl (congrArg GoVal.uint16 (UInt16.toUInt16_toUInt64 x))
  case uint24.uint32 x => exact readsBack_uint rfl rfl (congrArg GoVal.uint32 (UInt32.toUInt32_toUInt64 x))
  case uint32.uint32 x => exact readsBack_uint rfl rfl (congrArg GoVal.uint32 (UInt32.toUInt32_toUInt64 x))
  case uint64.uint64 x => exact readsBack_uint rfl rfl rfl
  case datetime.time ns => exact readsBack_time rfl
  case timestamp.time ns => exact readsBack_time rfl
  case char.string s => exact readsBack_framed rfl (.inl ⟨rfl, rfl⟩)
  case varchar.string s => exact readsBack_framed rfl (.inl ⟨rfl, rfl⟩)
  case text.string s => exact readsBack_framed rfl (.inl ⟨rfl, rfl⟩)
  case binary.bytes s => exact readsBack_framed rfl (.inr ⟨rfl, rfl⟩)
  case varbinary.bytes s => exact readsBack_framed rfl (.inr ⟨rfl, rfl⟩)
  case blob.bytes s => exact readsBack_framed rfl (.inr ⟨rfl, rfl⟩)

theorem length_field_of_coerce {x : Scalar} (hs : kind ≠ .string) (hb : kind ≠ .bytes)
    (hx : coerce kind v = .ok x) : x.field.length = 8 := by
  -- only the framed kinds give a string
  have hstr : ∀ s, x ≠ .str s := by
    rintro s rfl
    cases kind <;> first | exact hs rfl | exact hb rfl | skip
    all_goals cases v <;> cases hx
  cases x with
  | int i => exact length_encInt64 i
  | uint u => exact Bytes.length_u64 u
  | float f => exact Bytes.length_u64 _
  | str s => exact absurd rfl (hstr s)
  | time t => exact length_encInt64 _

theorem str_of_coerce {x : Scalar} (hk : kind = .string ∨ kind = .bytes)
    (hx : coerce kind v = .ok x) : ∃ s, x = .str s := by
  rcases hk with rfl | rfl
  all_goals cases v <;> cases hx <;> exact ⟨_, rfl⟩

/-- **A value that a column takes** is read back as some value. -/
theorem fieldReads_of_coerce {kind : ColKind} {v : GoVal} {x : Scalar} (hk : c.kind = .ok kind) (hx : coerce kind v = .ok x) :
    ∃ w, FieldReads round32 c v w := by
  by_cases hs : kind = .string
  · obtain ⟨s, rfl⟩ := str_of_coerce (.inl hs) hx
    exact ⟨.string s, kind, .str s, hk, hx, fun pre rest hlen => decodeField_framed hk (.inl ⟨hs, rfl⟩) hlen⟩
  by_cases hb : kind = .bytes
  · obtain ⟨s, rfl⟩ := str_of_coerce (.inr hb) hx
    exact ⟨.bytes s, kind, .str s, hk, hx, fun pre rest hlen => decodeField_framed hk (.inr ⟨hb, rfl⟩) hlen⟩
  · have hlen := length_field_of_coerce hs hb hx
    refine ⟨decodeFixed round32 c.qtype x.field kind, kind, x, hk, hx, fun pre rest _ => ?_⟩
    rw [decodeField_fixed hk hs hb hlen, hlen]

/-- A value of a fixed width is read back as one value only. -/
theorem FieldReads.unique {v w w' : GoVal} (hk : c.kind = .ok kind) (hs : kind ≠ .string)
    (hb : kind ≠ .bytes) (h : FieldReads round32 c v w) (h' : FieldReads round32 c v w') : w = w' := by
  obtain ⟨kind₁, x, hk₁, hx, hread⟩ := h
  obtain ⟨kind₂, x', hk₂, hx', hread'⟩ := h'
  obtain rfl : kind = kind₁ := Except.ok.inj (hk.symm.trans hk₁)
  obtain rfl : kind = kind₂ := Except.ok.inj (hk.symm.trans hk₂)
  obtain rfl : x = x' := Except.ok.inj (hx.symm.trans hx')
  have hlen : ([] ++ (x.field ++ []) : Bytes).length < 2 ^ 63 := by
    rw [List.nil_append, List.append_nil, length_field_of_coerce hs hb hx]
    decide
  exact congrArg Prod.fst (Except.ok.inj ((hread [] [] hlen).symm.trans (hread' [] [] hlen)))

end

/-! ## Rows -/

/-- The values of `row` are read back as those of `row'`, column by column. -/
inductive RowReads (round32 : UInt64 → UInt64) : List ColDef → Row → Row → Prop
  | nil : RowReads round32 [] [] []
  | null {c : ColDef} {cols : List ColDef} {row row' : Row} (h : RowReads round32 cols row row') :
    RowReads round32 (c :: cols) (none :: row) (none :: row')
  | value {c : ColDef} {cols : List ColDef} {row row' : Row} {v w : GoVal} (hv : FieldReads round32 c v w)
      (h : RowReads round32 cols row row') : RowReads round32 (c :: cols) (some v :: row) (some w :: row')

variable {cols : List ColDef} {row row' : Row}

theorem RowReads.length_eq (h : RowReads round32 cols row row') : row.length = cols.length := by
  induction h with
  | nil => rfl
  | null _ ih | value _ _ ih => exact congrArg (· + 1) ih

/-- The loop of `decodeRow` reads what the loop of `encodeRow` wrote, whatever stands around the row. -/
theorem RowReads.decodeFields (h : RowReads round32 cols row row') :
    ∃ enc, encodeFields cols row = .ok enc ∧ ∀ pre rest : Bytes, (pre ++ (enc ++ rest)).length < 2 ^ 63 →
      ImmutableLedger.decodeFields round32 (pre ++ (enc ++ rest)) cols pre.length = .ok (row', pre.length + enc.length) := by
  induction h with
  | nil => exact ⟨[], rfl, fun pre rest _ => rfl⟩
  | @null c cols row row' _ ih =>
    obtain ⟨enc, henc, hdec⟩ := ih
    refine ⟨rowNull :: enc, ?_, fun pre rest hlen => ?_⟩
    · unfold encodeFields
      rw [henc]
      rfl
    · have happ : pre ++ (rowNull :: enc ++ rest) = (pre ++ [rowNull]) ++ (enc ++ rest) := by
        rw [List.append_assoc]
        rfl
      have htail := hdec (pre ++ [rowNull]) rest (by rw [← happ]; exact hlen)
      rw [List.length_append, List.length_singleton] at htail
      unfold ImmutableLedger.decodeFields
      rw [List.drop_left]
      show (if rowNull = rowNull then _ else _) = _
      rw [if_pos rfl, happ, htail, List.length_cons]
      show Except.ok _ = _
      rw [show pre.length + 1 + enc.length = pre.length + (enc.length + 1) by omega]
  | @value c cols row row' v w hv _ ih =>
    obtain ⟨enc, henc, hdec⟩ := ih
    obtain ⟨kind, x, hk, hx, hread⟩ := hv
    refine ⟨rowPresent :: x.field ++ enc, ?_, fun pre rest hlen => ?_⟩
    · unfold encodeFields encodeField
      simp only [bind, Except.bind, hk, hx, henc]
      rfl
    · have happ : pre ++ (rowPresent :: x.field ++ enc ++ rest) =
          (pre ++ [rowPresent]) ++ (x.field ++ (enc ++ rest)) := by simp
      have happ' : pre ++ (rowPresent :: x.field ++ enc ++ rest) =
          (pre ++ [rowPresent] ++ x.field) ++ (enc ++ rest) := by simp
      have hval := hread (pre ++ [rowPresent]) (enc ++ rest) (by rw [← happ]; exact hlen)
      have htail := hdec (pre ++ [rowPresent] ++ x.field) rest (by rw [← happ']; exact hlen)
      rw [← happ, List.length_append, List.length_singleton] at hval
      rw [← happ', List.length_append, List.length_append, List.length_singleton] at htail
      have hdrop : (pre ++ (rowPresent :: x.field ++ enc ++ rest)).drop pre.length =
          rowPresent :: (x.field ++ enc ++ rest) := List.drop_left
      unfold ImmutableLedger.decodeFields
      rw [hdrop]
      dsimp only
      rw [if_neg (by decide), if_neg (by decide), hval]
      simp only [bind, Except.bind, htail, List.length_append, List.length_cons]
      rw [show pre.length + 1 + x.field.length + enc.length = pre.length + (x.field.length + 1 + enc.length) by omega]
      rfl

/-- **Decoding an encoded row**, column by column. -/
theorem RowReads.decodeRow (h : RowReads round32 cols row row') :
    ∃ data, encodeRow cols row = .ok data ∧
      (data.length < 2 ^ 63 → ImmutableLedger.decodeRow round32 cols data = .ok row') := by
  obtain ⟨data, henc, hdec⟩ := h.decodeFields
  refine ⟨data, ?_, fun hlen => ?_⟩
  · unfold encodeRow
    rw [if_neg (not_not.2 h.length_eq), henc]
  · have hrun := hdec [] []
    rw [List.nil_append, List.append_nil, List.length_nil, Nat.zero_add] at hrun
    unfold ImmutableLedger.decodeRow
    rw [hrun hlen]
    show (if data.length ≠ data.length then _ else _) = _
    rw [if_neg (not_not.2 rfl)]
    rfl

/-- A row that encodes is read back as some row. -/
theorem rowReads_of_encodeFields : ∀ {cols : List ColDef} {row : Row} {enc : Bytes}, row.length = cols.length →
    encodeFields cols row = .ok enc → ∃ row', RowReads round32 cols row row' := by
  intro cols
  induction cols with
  | nil =>
    intro row enc hlen _
    obtain rfl := List.eq_nil_of_length_eq_zero hlen
    exact ⟨[], .nil⟩
  | cons c cols ih =>
    intro row enc hlen henc
    obtain ⟨o, row, rfl⟩ := List.exists_of_length_succ row hlen
    obtain ⟨field, hfield, h₁⟩ := Except.ok_of_bind henc
    obtain ⟨rest, hrest, -⟩ := Except.ok_of_bind h₁
    obtain ⟨row', hrow⟩ := ih (Nat.succ.inj hlen) hrest
    cases o with
    | none => exact ⟨none :: row', .null hrow⟩
    | some v =>
      obtain ⟨kind, hk, h₂⟩ := Except.ok_of_bind hfield
      cases hx : coerce kind v with
      | error e =>
        rw [hx] at h₂
        cases h₂
      | ok x =>
        obtain ⟨w, hw⟩ := @fieldReads_of_coerce round32 c kind v x hk hx
        exact ⟨some w :: row', .value hw hrow⟩

theorem rowReads_of_encodeRow {cols : List ColDef} {row : Row} {data : Bytes} (h : encodeRow cols row = .ok data) :
    ∃ row', RowReads round32 cols row row' := by
  unfold encodeRow at h
  split at h
  · cases h
  · rename_i hlen
    exact rowReads_of_encodeFields (not_not.1 hlen) h

/-- The value read in a column comes from the value of the row in that column. -/
theorem RowReads.get (h : RowReads round32 cols row row') :
    ∀ {i : ℕ} {c : ColDef} {w : GoVal}, cols[i]? = some c → row'[i]? = some (some w) →
      ∃ v, row[i]? = some (some v) ∧ FieldReads round32 c v w := by
  induction h with
  | nil =>
    intro i c w hc
    rw [List.getElem?_nil] at hc
    cases hc
  | null _ ih =>
    intro i c w hc hw
    cases i with
    | zero => cases hw
    | succ i => exact ih hc hw
  | value hv _ ih =>
    intro i c w hc hw
    cases i with
    | zero =>
      cases hc
      cases hw
      exact ⟨_, rfl, hv⟩
    | succ i => exact ih hc hw

theorem RowTyped.reads {row : Row} (h : RowTyped cols row) :
    RowReads round32 cols row (row.map (Option.map GoVal.stored)) := by
  induction h with
  | nil => exact .nil
  | @cons c o cols row hcol _ ih =>
    cases o with
    | none => exact .null ih
    | some v => exact .value (readsBack_of_hasType (hcol v rfl)) ih

/-- **Decoding an encoded row** of the Go types of its columns gives its stored form. -/
theorem decodeRow_of_encodeRow {cols : List ColDef} {row : Row} (h : RowTyped cols row) :
    ∃ data, encodeRow cols row = .ok data ∧ (data.length < 2 ^ 63 →
      decodeRow round32 cols data = .ok (row.map (Option.map GoVal.stored))) := h.reads.decodeRow

/-! ## The round trip -/

theorem stored_eq_iff (v : GoVal) : v.stored = v ↔ ∀ ns, v = .time ns → InNanos ns := by
  constructor
  · rintro h ns rfl
    have hns : (unixNano ns).toInt = ns := GoVal.time.inj h
    have hlo := (unixNano ns).le_toInt
    have hhi := (unixNano ns).toInt_lt
    rw [hns] at hlo hhi
    exact ⟨hlo, hhi⟩
  · intro h
    cases v with
    | time ns => exact congrArg GoVal.time (toInt_unixNano (h ns rfl))
    | _ => rfl

/-- **The round trip of a row.** A row whose values have the Go types of their columns encodes, and decoding gives the row
itself exactly when the nanoseconds of its times fit into 64 bits. (A Go slice is shorter than `2^63`.) -/
theorem row_roundtrip_iff {cols : List ColDef} {row : Row} (h : RowTyped cols row) :
    ∃ data, encodeRow cols row = .ok data ∧ (data.length < 2 ^ 63 →
      (decodeRow round32 cols data = .ok row ↔ ∀ ns, some (.time ns) ∈ row → InNanos ns)) := by
  obtain ⟨data, henc, hdec⟩ := @decodeRow_of_encodeRow round32 cols row h
  refine ⟨data, henc, fun hlen => ?_⟩
  rw [hdec hlen, Except.ok.injEq]
  have hmap : row.map (Option.map GoVal.stored) = row ↔ ∀ o ∈ row, Option.map GoVal.stored o = o := by
    rw [← List.map_id row, List.map_map, List.map_inj_left]
    simp
  rw [hmap]
  constructor
  · intro hall ns hns
    have hsome := hall _ hns
    exact (stored_eq_iff _).1 (Option.some.inj hsome) ns rfl
  · intro hall o ho
    cases o with
    | none => rfl
    | some v =>
      refine congrArg some ((stored_eq_iff v).2 ?_)
      rintro ns rfl
      exact hall ns ho

/-- A person born in 1970 comes back. -/
theorem row_roundtrip_people : ∃ data,
    encodeRow peopleDef.columns [some (.int32 (-7)), none, some (.time 5)] = .ok data ∧
      decodeRow id peopleDef.columns data = .ok [some (.int32 (-7)), none, some (.time 5)] := by
  have htyped : RowTyped peopleDef.columns [some (.int32 (-7)), none, some (.time 5)] := by
    refine .cons ?_ (.cons ?_ (.cons ?_ .nil)) <;> rintro v ⟨⟩ <;> trivial
  have htimes : ∀ ns, some (GoVal.time ns) ∈ [some (GoVal.int32 (-7)), none, some (GoVal.time 5)] → InNanos ns := by
    intro ns hns
    simp only [List.mem_cons, List.not_mem_nil, Option.some.injEq, GoVal.time.injEq, reduceCtorEq, false_or, or_false]
      at hns
    rw [hns]
    decide
  obtain ⟨data, henc, h⟩ := @row_roundtrip_iff id _ _ htyped
  refine ⟨data, henc, (h ?_).2 htimes⟩
  cases henc
  decide

/-- The instant is from year 1000 to year 9999, as MySQL allows. -/
def InYears (ns : ℤ) : Prop := -30610224000 * 10 ^ 9 ≤ ns ∧ ns < 253402300800 * 10 ^ 9

instance (ns : ℤ) : Decidable (InYears ns) := inferInstanceAs (Decidable (_ ∧ _))

/-- A person born on New Year's Eve of 9999 comes back born in 1816. -/
theorem year_9999_wraps : ∃ data, RowTyped peopleDef.columns [some (.int32 1), none, some (.time 253402214400000000000)] ∧
    InYears 253402214400000000000 ∧
    encodeRow peopleDef.columns [some (.int32 1), none, some (.time 253402214400000000000)] = .ok data ∧
    decodeRow id peopleDef.columns data = .ok [some (.int32 1), none, some (.time (-4852202631933722624))] := by
  refine ⟨_, .cons ?_ (.cons ?_ (.cons ?_ .nil)), by decide, rfl, rfl⟩ <;> rintro v ⟨⟩ <;> trivial

/-! ## Arbitrary bytes -/

/-- A column whose values are framed by their length. -/
def ColDef.Framed (c : ColDef) : Prop := c.kind = .ok .string ∨ c.kind = .ok .bytes

/-- Where a value of the column that starts at `off` ends: eight bytes on, or by the length it starts with. -/
def fieldEnd (c : ColDef) (data : Bytes) (off : ℕ) : Option ℕ :=
  match c.kind with
  | .ok .string | .ok .bytes => (Bytes.uvarint (data.drop off)).map fun p => off + p.2 + p.1
  | .ok _ => some (off + 8)
  | .error _ => none

/-- Going through the fields of `cols` from `off` on, by their markers and sizes, one comes to a value of the column `c`,
which starts at `o`. -/
inductive Reaches (data : Bytes) : List ColDef → ℕ → ColDef → ℕ → Prop
  | here {c : ColDef} {cols : List ColDef} {off : ℕ} (hm : data[off]? = some rowPresent) :
    Reaches data (c :: cols) off c (off + 1)
  | null {c c' : ColDef} {cols : List ColDef} {off o : ℕ} (hm : data[off]? = some rowNull)
      (h : Reaches data cols (off + 1) c' o) : Reaches data (c :: cols) off c' o
  | next {c c' : ColDef} {cols : List ColDef} {off off' o : ℕ} (hm : data[off]? = some rowPresent)
      (hend : fieldEnd c data (off + 1) = some off') (h : Reaches data cols off' c' o) :
    Reaches data (c :: cols) off c' o

/-- The length read at `o` takes the end of its value past the largest `int`. -/
def Overlong (data : Bytes) (o : ℕ) : Prop := ∃ n sz, Bytes.uvarint (data.drop o) = some (n, sz) ∧ 2 ^ 63 ≤ o + sz + n

section
variable {data : Bytes} {c : ColDef} {cols : List ColDef} {off : ℕ}

/-- A framed value, by where its length says it ends: the bound wraps, is past the data, or is within. -/
theorem decodeFramed_eq (hlen : data.length < 2 ^ 63) {n sz : ℕ} (hu : Bytes.uvarint (data.drop off) = some (n, sz)) :
    decodeFramed c data off = if 2 ^ 63 ≤ off + sz + n then .error .panic
      else if data.length < off + sz + n then .error (errRow "row truncated at column %q" c)
      else .ok ((data.drop (off + sz)).take n, off + sz + n) := by
  obtain ⟨hpos, hsz, hn⟩ := Bytes.uvarint_bounds hu
  rw [List.length_drop] at hsz
  have hoff : off + sz ≤ data.length := by omega
  -- the bound as an `int`: itself, or wrapped once
  have hstop : (Int64.ofInt (off + sz + n)).toInt = ((off + sz + n : ℕ) : ℤ) ∧ off + sz + n < 2 ^ 63 ∨
      (Int64.ofInt (off + sz + n)).toInt = ((off + sz + n : ℕ) : ℤ) - 2 ^ 64 ∧ 2 ^ 63 ≤ off + sz + n := by
    rw [Int64.toInt_ofInt, Int.bmod_def]
    push_cast
    omega
  simp only [decodeFramed, hu]
  rcases hstop with ⟨hs, hlt⟩ | ⟨hs, hge⟩
  · rw [hs, if_neg (not_le.2 hlt)]
    by_cases hlong : data.length < off + sz + n
    · rw [if_pos hlong, if_pos (by push_cast; omega)]
    · rw [if_neg hlong, if_neg (by push_cast; omega), if_neg (by push_cast; omega)]
  · rw [hs, if_pos hge, if_neg (by push_cast; omega), if_pos (by push_cast; omega)]

/-- **A framed value panics exactly when its bound wraps.** -/
theorem decodeFramed_panic_iff (hlen : data.length < 2 ^ 63) :
    decodeFramed c data off = .error .panic ↔ Overlong data off := by
  cases hu : Bytes.uvarint (data.drop off) with
  | none => simp [decodeFramed, Overlong, hu, errRow]
  | some p =>
    obtain ⟨n, sz⟩ := p
    have hiff : Overlong data off ↔ 2 ^ 63 ≤ off + sz + n := by simp [Overlong, hu]
    rw [decodeFramed_eq hlen hu, hiff]
    split_ifs <;> simp_all [errRow]

/-- A framed value is decoded exactly when the data go on to its end. -/
theorem decodeFramed_ok_iff (hlen : data.length < 2 ^ 63) {off' : ℕ} : (∃ b, decodeFramed c data off = .ok (b, off')) ↔
    (Bytes.uvarint (data.drop off)).map (fun p => off + p.2 + p.1) = some off' ∧ off' ≤ data.length := by
  cases hu : Bytes.uvarint (data.drop off) with
  | none => simp [decodeFramed, hu]
  | some p =>
    obtain ⟨n, sz⟩ := p
    rw [decodeFramed_eq hlen hu]
    simp only [Option.map_some, Option.some.injEq]
    split_ifs <;> simp <;> omega

theorem Reaches.le {o : ℕ} {c' : ColDef} (h : Reaches data cols off c' o) : off ≤ data.length := by
  cases h with
  | here hm | null hm | next hm => exact (List.getElem?_eq_some_iff.1 hm).1.le

/-- A bind fails with an error of its first part, or with one of the rest. -/
theorem bind_eq_error_iff {ε α β : Type} {x : Except ε α} {f : α → Except ε β} {e : ε} :
    x >>= f = .error e ↔ x = .error e ∨ ∃ a, x = .ok a ∧ f a = .error e := by
  cases x with
  | error e' =>
    refine ⟨fun h => .inl ?_, ?_⟩
    · cases h
      rfl
    · rintro (h | ⟨a, h, -⟩)
      · cases h
        rfl
      · cases h
  | ok a =>
    refine ⟨fun h => .inr ⟨a, rfl, h⟩, ?_⟩
    rintro (h | ⟨b, h, hf⟩)
    · cases h
    · cases h
      exact hf

theorem kind_ne_panic (c : ColDef) : c.kind ≠ .error .panic := by
  unfold ColDef.kind
  cases c.qtype <;> exact fun h => (by cases h)

theorem decodeField_panic_iff (hlen : data.length < 2 ^ 63) :
    decodeField round32 c data off = .error .panic ↔ c.Framed ∧ Overlong data off := by
  unfold decodeField ColDef.Framed
  cases hk : c.kind with
  | error e =>
    have hne := kind_ne_panic c
    rw [hk] at hne
    refine ⟨fun h => ?_, ?_⟩
    · cases h
      exact absurd rfl hne
    · rintro ⟨h | h, -⟩ <;> cases h
  | ok kind =>
    have hframed : ∀ {f : Bytes → GoVal}, (decodeFramed c data off >>= fun p => pure (f p.1, p.2)) = .error .panic ↔
        Overlong data off := by
      intro f
      rw [bind_eq_error_iff, decodeFramed_panic_iff hlen]
      refine ⟨fun h => h.elim id ?_, .inl⟩
      rintro ⟨p, -, h⟩
      cases h
    have hfixed : ∀ {r : GoVal × ℕ}, (if off + 8 > data.length then
        (.error (errRow "row truncated at column %q" c) : Except SqlErr _) else .ok r) ≠ .error .panic := by
      intro r
      split <;> exact fun h => (by cases h)
    cases kind with
    | string => exact hframed.trans ⟨fun h => ⟨.inl rfl, h⟩, And.right⟩
    | bytes => exact hframed.trans ⟨fun h => ⟨.inr rfl, h⟩, And.right⟩
    | _ =>
      refine ⟨fun h => absurd h hfixed, ?_⟩
      rintro ⟨h | h, -⟩ <;> cases h

/-- A value is decoded exactly when the data go on to its end. -/
theorem decodeField_ok_iff (hlen : data.length < 2 ^ 63) {off' : ℕ} : (∃ v, decodeField round32 c data off = .ok (v, off')) ↔
    fieldEnd c data off = some off' ∧ off' ≤ data.length := by
  have hframed : ∀ {f : Bytes → GoVal}, (∃ v, (decodeFramed c data off >>= fun p => pure (f p.1, p.2)) = .ok (v, off')) ↔
      ∃ b, decodeFramed c data off = .ok (b, off') := by
    intro f
    cases hd : decodeFramed c data off with
    | error e => constructor <;> · rintro ⟨_, h⟩; cases h
    | ok p => constructor <;> · rintro ⟨_, h⟩; cases h; exact ⟨_, rfl⟩
  unfold decodeField fieldEnd
  cases c.kind with
  | error e =>
    constructor
    · rintro ⟨_, h⟩; cases h
    · rintro ⟨h, -⟩; cases h
  | ok kind =>
    cases kind with
    | string | bytes => exact hframed.trans (decodeFramed_ok_iff hlen)
    | _ =>
      show (∃ v, (if off + 8 > data.length then Except.error _ else Except.ok _) = _) ↔ _
      split_ifs <;> simp <;> omega

/-- The loop panics exactly when it comes to a framed value whose bound wraps. -/
theorem decodeFields_panic_iff (hlen : data.length < 2 ^ 63) : ∀ {cols : List ColDef} {off : ℕ},
    decodeFields round32 data cols off = .error .panic ↔
      ∃ c o, Reaches data cols off c o ∧ c.Framed ∧ Overlong data o := by
  intro cols
  induction cols with
  | nil =>
    intro off
    refine ⟨fun h => (by cases h), ?_⟩
    rintro ⟨c, o, h, -⟩
    cases h
  | cons c cols ih =>
    intro off
    unfold decodeFields
    have hpure : ∀ {β : Type} {x : Except SqlErr (Row × ℕ)} {f : Row × ℕ → β},
        (x >>= fun p => pure (f p)) = .error .panic ↔ x = .error .panic := by
      intro β x f
      rw [bind_eq_error_iff]
      refine ⟨fun h => h.elim id ?_, .inl⟩
      rintro ⟨p, -, h⟩
      cases h
    cases hd : data.drop off with
    | nil =>
      have hnone : data[off]? = none := by
        rw [← List.head?_drop, hd]
        rfl
      refine ⟨fun h => (by cases h), ?_⟩
      rintro ⟨c', o, h, -⟩
      cases h <;> · rw [hnone] at *; contradiction
    | cons marker rest =>
      have hmark : data[off]? = some marker := by
        rw [← List.head?_drop, hd]
        rfl
      dsimp only
      by_cases hnull : marker = rowNull
      · rw [if_pos hnull]
        rw [hnull] at hmark
        refine (hpure (f := fun p => (none :: p.1, p.2))).trans (ih.trans ?_)
        constructor
        · rintro ⟨c', o, h, hrest⟩
          exact ⟨c', o, .null hmark h, hrest⟩
        · rintro ⟨c', o, h, hrest⟩
          cases h with
          | here hm | next hm => rw [hmark] at hm; exact absurd hm (by decide)
          | null _ h => exact ⟨c', o, h, hrest⟩
      · rw [if_neg hnull]
        by_cases hpresent : marker = rowPresent
        · rw [if_neg (not_not.2 hpresent)]
          rw [hpresent] at hmark
          rw [bind_eq_error_iff, decodeField_panic_iff hlen]
          constructor
          · rintro (⟨hf, ho⟩ | ⟨⟨v, off'⟩, hv, h⟩)
            · exact ⟨c, off + 1, .here hmark, hf, ho⟩
            · obtain ⟨c', o, hreach, hrest⟩ := ih.1 ((hpure (f := fun p => (some v :: p.1, p.2))).1 h)
              exact ⟨c', o, .next hmark ((decodeField_ok_iff hlen).1 ⟨v, hv⟩).1 hreach, hrest⟩
          · rintro ⟨c', o, h, hrest⟩
            cases h with
            | here => exact .inl hrest
            | null hm => rw [hmark] at hm; exact absurd hm (by decide)
            | next _ hend h =>
              obtain ⟨v, hv⟩ := (decodeField_ok_iff hlen).2 ⟨hend, h.le⟩
              exact .inr ⟨_, hv, (hpure (f := fun p => (some _ :: p.1, p.2))).2 (ih.2 ⟨c', o, h, hrest⟩)⟩
        · rw [if_pos hpresent]
          refine ⟨fun h => (by cases h), ?_⟩
          rintro ⟨c', o, h, -⟩
          cases h with
          | here hm => exact absurd (Option.some.inj (hmark.symm.trans hm)) hpresent
          | null hm => exact absurd (Option.some.inj (hmark.symm.trans hm)) hnull
          | next hm => exact absurd (Option.some.inj (hmark.symm.trans hm)) hpresent

/-- **Decoding arbitrary bytes.** It returns a row or an error, every slice within bounds, exactly when no framed value it
comes to has a length that takes its end past the largest `int`. (A Go slice is shorter than `2^63`.) -/
theorem decode_safe_iff (round32 : UInt64 → UInt64) (cols : List ColDef) (data : Bytes) (hlen : data.length < 2 ^ 63) :
    decodeRow round32 cols data ≠ .error .panic ↔
      ∀ c o, Reaches data cols 0 c o → c.Framed → ¬ Overlong data o := by
  have hiff : decodeRow round32 cols data = .error .panic ↔
      ∃ c o, Reaches data cols 0 c o ∧ c.Framed ∧ Overlong data o := by
    unfold decodeRow
    rw [bind_eq_error_iff, decodeFields_panic_iff hlen]
    refine ⟨fun h => h.elim id ?_, .inl⟩
    rintro ⟨⟨row, off⟩, -, h⟩
    dsimp only at h
    split at h <;> cases h
  rw [ne_eq, hiff]
  push Not
  rfl

end

/-- A row cut short is refused, not a panic. -/
theorem decode_safe_short : decodeRow id [{ name := ascii "s", qtype := .varchar }] [1, 5, 97] ≠ .error .panic := by
  refine (decode_safe_iff id [{ name := ascii "s", qtype := .varchar }] [1, 5, 97] (by decide)).2 ?_
  rintro c o h - ⟨n, sz, hu, hle⟩
  cases h with
  | here =>
    cases hu
    exact absurd hle (by decide)
  | null hm => cases hm
  | next _ _ h => cases h

/-- A string column with a length of `2^64 - 1`: the end of the value wraps to one byte before its start. -/
theorem decode_panics : decodeRow id [{ name := ascii "s", qtype := .varchar }]
    [1, 255, 255, 255, 255, 255, 255, 255, 255, 255, 1] = .error .panic := rfl

end ImmutableLedger
