import ImmutableLedger.Proof.RowCodec

/-!
# Rows of the query engine

The engine hands over rows whose values have the Go types of their columns. Such a row comes back from the store with its
times wrapped, and what the layer computes from a row does not see the difference: the row read back has the same stored
bytes, the same primary-key bytes and the same index columns.

* `EngineRow`: a row of a table's columns.
* `EngineRow.decodes`: what is read back, and that it encodes as the row does.
-/

namespace ImmutableLedger

variable {round32 : UInt64 → UInt64} {G : GoLib}

/-! ## Floats -/

theorem getElem_signBit {i : ℕ} (hi : i < 64) : signBit.toBitVec[i] = decide (i = 63) := by
  have h : signBit.toBitVec = BitVec.twoPow 64 63 := by decide
  simp only [h, BitVec.getElem_twoPow]

theorem and_signBit_eq_zero_iff (bits : UInt64) : bits &&& signBit = 0 ↔ bits.toBitVec[63] = false := by
  constructor
  · intro h
    have hb := congrArg (fun x : UInt64 => x.toBitVec[63]) h
    simpa [getElem_signBit] using hb
  · intro h
    refine UInt64.eq_of_toBitVec_eq (BitVec.eq_of_getElem_eq fun i hi => ?_)
    by_cases h63 : i = 63
    · subst h63
      simp [h]
    · simp [getElem_signBit, h63]

/-- The key form of a float loses nothing. -/
theorem decFloat64_encFloat64 (bits : UInt64) : decFloat64 (encFloat64 bits) = bits := by
  unfold decFloat64 encFloat64
  rw [Bytes.toU64_u64]
  by_cases h : bits &&& signBit = 0
  · -- a float without a sign gets the bit, and loses it again
    have hset : (bits ||| signBit) &&& signBit ≠ 0 := by
      rw [Ne, and_signBit_eq_zero_iff]
      simp [getElem_signBit]
    rw [if_neg (not_not.2 h), if_pos hset]
    rw [and_signBit_eq_zero_iff] at h
    refine UInt64.eq_of_toBitVec_eq (BitVec.eq_of_getElem_eq fun i hi => ?_)
    by_cases h63 : i = 63
    · subst h63
      simp [getElem_signBit, h]
    · simp [getElem_signBit, h63]
  · -- one with a sign is inverted twice
    have hclear : ~~~bits &&& signBit = 0 := by
      rw [and_signBit_eq_zero_iff] at h ⊢
      simpa using h
    rw [if_pos h, if_neg (not_not.2 hclear), UInt64.not_not]

/-! ## One value -/

/-- The value has the Go type of a column of type `qt`. A `float32` is one that rounding leaves alone. -/
def GoVal.FitsType (round32 : UInt64 → UInt64) (qt : QType) (v : GoVal) : Prop :=
  v.HasType qt ∨ (qt = .float64 ∧ ∃ b, v = .float64 b) ∨ (qt = .float32 ∧ ∃ b, v = .float32 b ∧ round32 b = b)

theorem fieldReads_of_fits {c : ColDef} {v : GoVal} (h : v.FitsType round32 c.qtype) : FieldReads round32 c v v.stored := by
  rcases h with h | ⟨hqt, b, rfl⟩ | ⟨hqt, b, rfl, hb⟩
  · exact readsBack_of_hasType h
  · have hk : c.kind = .ok .float64 := by
      unfold ColDef.kind
      rw [hqt]
      rfl
    refine readsBack_fixed hk rfl (by decide) (by decide) (Bytes.length_u64 _) ?_
    show GoVal.float64 (decFloat64 (encFloat64 b)) = _
    rw [decFloat64_encFloat64]
    rfl
  · have hk : c.kind = .ok .float32 := by
      unfold ColDef.kind
      rw [hqt]
      rfl
    refine readsBack_fixed hk rfl (by decide) (by decide) (Bytes.length_u64 _) ?_
    show GoVal.float32 (round32 (decFloat64 (encFloat64 b))) = _
    rw [decFloat64_encFloat64, hb]
    rfl

/-- Two values of a column that no encoding tells apart. -/
def FieldAlike (c : ColDef) (v w : GoVal) : Prop :=
  ∃ kind x y, c.kind = .ok kind ∧ coerce kind v = .ok x ∧ coerce kind w = .ok y ∧ x.field = y.field ∧ x.key = y.key

theorem unixNano_toInt (v : Int64) : unixNano v.toInt = v := Int64.ofInt_toInt v

/-- A value and its stored form. -/
theorem alike_stored {c : ColDef} {v : GoVal} (h : FieldReads round32 c v v.stored) : FieldAlike c v v.stored := by
  obtain ⟨kind, x, hk, hx, -⟩ := h
  cases v with
  | time ns =>
    -- the nanoseconds are wrapped already
    cases kind <;> cases hx
    have hfield : (Scalar.time ns).field = (Scalar.time (unixNano ns).toInt).field := by
      show encInt64 (unixNano ns) = encInt64 (unixNano (unixNano ns).toInt)
      rw [unixNano_toInt]
    exact ⟨.datetime, _, _, hk, rfl, rfl, hfield, hfield⟩
  | _ => exact ⟨kind, x, x, hk, hx, hx, rfl, rfl⟩

theorem GoVal.FitsType.stored {qt : QType} {v : GoVal} (h : v.FitsType round32 qt) : v.stored.FitsType round32 qt := by
  cases v with
  | time ns =>
    rcases h with h | ⟨-, b, hb⟩ | ⟨-, b, hb, -⟩
    · refine .inl ?_
      cases qt <;> first | exact absurd h not_false | trivial
    · cases hb
    · cases hb
  | _ => exact h

/-! ## Rows -/

/-- Two rows that no encoding tells apart. -/
inductive RowsAlike : List ColDef → Row → Row → Prop
  | nil : RowsAlike [] [] []
  | null {c : ColDef} {cols : List ColDef} {row row' : Row} (h : RowsAlike cols row row') :
    RowsAlike (c :: cols) (none :: row) (none :: row')
  | value {c : ColDef} {cols : List ColDef} {row row' : Row} {v w : GoVal} (hv : FieldAlike c v w)
      (h : RowsAlike cols row row') : RowsAlike (c :: cols) (some v :: row) (some w :: row')

/-- The two values of a column. -/
inductive ValuesAlike (c : ColDef) : Option GoVal → Option GoVal → Prop
  | null : ValuesAlike c none none
  | value {v w : GoVal} (h : FieldAlike c v w) : ValuesAlike c (some v) (some w)

section
variable {cols : List ColDef} {row row' : Row}

theorem RowsAlike.length_eq (h : RowsAlike cols row row') : row.length = cols.length ∧ row'.length = cols.length := by
  induction h with
  | nil => exact ⟨rfl, rfl⟩
  | null _ ih | value _ _ ih => exact ⟨congrArg (· + 1) ih.1, congrArg (· + 1) ih.2⟩

theorem RowsAlike.encodeFields (h : RowsAlike cols row row') :
    ImmutableLedger.encodeFields cols row = ImmutableLedger.encodeFields cols row' := by
  induction h with
  | nil => rfl
  | null _ ih =>
    unfold ImmutableLedger.encodeFields
    rw [ih]
  | value hv _ ih =>
    obtain ⟨kind, x, y, hk, hx, hy, hfield, -⟩ := hv
    unfold ImmutableLedger.encodeFields encodeField
    simp only [hk, hx, hy, hfield, ih, bind, Except.bind]

theorem RowsAlike.encodeRow (h : RowsAlike cols row row') :
    ImmutableLedger.encodeRow cols row = ImmutableLedger.encodeRow cols row' := by
  unfold ImmutableLedger.encodeRow
  rw [if_neg (not_not.2 h.length_eq.1), if_neg (not_not.2 h.length_eq.2), h.encodeFields]

theorem RowsAlike.get (h : RowsAlike cols row row') : ∀ i : ℕ,
    (cols[i]? = none ∧ row[i]? = none ∧ row'[i]? = none) ∨
      ∃ c o o', cols[i]? = some c ∧ row[i]? = some o ∧ row'[i]? = some o' ∧ ValuesAlike c o o' := by
  induction h with
  | nil => exact fun i => .inl ⟨rfl, rfl, rfl⟩
  | null _ ih =>
    intro i
    cases i with
    | zero => exact .inr ⟨_, _, _, rfl, rfl, rfl, .null⟩
    | succ i => exact ih i
  | value hv _ ih =>
    intro i
    cases i with
    | zero => exact .inr ⟨_, _, _, rfl, rfl, rfl, .value hv⟩
    | succ i => exact ih i

end

section
variable {d : TableDef} {row row' : Row}

theorem FieldAlike.encodeKeyCol {c : ColDef} {v w : GoVal} {kind : ColKind} (h : FieldAlike c v w) (hk : c.kind = .ok kind) :
    ImmutableLedger.encodeKeyCol kind v = ImmutableLedger.encodeKeyCol kind w := by
  obtain ⟨kind', x, y, hk', hx, hy, -, hkey⟩ := h
  obtain rfl : kind = kind' := Except.ok.inj (hk.symm.trans hk')
  unfold ImmutableLedger.encodeKeyCol
  rw [hx, hy]
  show Except.ok x.key = Except.ok y.key
  rw [hkey]

/-- The step over one ordinal: the same outcome, or two values that encode alike. -/
theorem RowsAlike.column (h : RowsAlike d.columns row row') (ord : ℕ) :
    rowAt row ord = rowAt row' ord ∨ ∃ c kind v w, d.columnAt ord = .ok c ∧ c.kind = .ok kind ∧ rowAt row ord = .ok (some v) ∧
      rowAt row' ord = .ok (some w) ∧ ImmutableLedger.encodeKeyCol kind v = ImmutableLedger.encodeKeyCol kind w := by
  unfold rowAt TableDef.columnAt
  rcases h.get ord with ⟨-, hr, hr'⟩ | ⟨c, o, o', hc, hr, hr', hv⟩
  · exact .inl (by rw [hr, hr'])
  · cases hv with
    | null => exact .inl (by rw [hr, hr'])
    | value hv =>
      obtain ⟨kind, x, y, hk, -⟩ := id hv
      exact .inr ⟨c, kind, _, _, by rw [hc], hk, by rw [hr], by rw [hr'], hv.encodeKeyCol hk⟩

theorem RowsAlike.encodePKCols (h : RowsAlike d.columns row row') :
    ∀ ords : List ℕ, ImmutableLedger.encodePKCols d row ords = ImmutableLedger.encodePKCols d row' ords := by
  intro ords
  induction ords with
  | nil => rfl
  | cons ord ords ih =>
    unfold ImmutableLedger.encodePKCols
    rcases h.column ord with hsame | ⟨c, kind, v, w, hat, hk, hv, hw, henc⟩
    · rw [hsame, ih]
    · simp only [hv, hw, hat, hk, henc, ih, bind, Except.bind]

theorem RowsAlike.encodePK (h : RowsAlike d.columns row row') :
    ImmutableLedger.encodePK d row = ImmutableLedger.encodePK d row' := h.encodePKCols d.pkOrds

theorem RowsAlike.encodeIndexOrds (h : RowsAlike d.columns row row') (idx : IndexDef) :
    ∀ ords : List ℕ, ImmutableLedger.encodeIndexOrds d idx row ords = ImmutableLedger.encodeIndexOrds d idx row' ords := by
  intro ords
  induction ords with
  | nil => rfl
  | cons ord ords ih =>
    unfold ImmutableLedger.encodeIndexOrds
    rcases h.column ord with hsame | ⟨c, kind, v, w, hat, hk, hv, hw, henc⟩
    · rw [hsame, ih]
    · simp only [hv, hw, hat, hk, henc, ih, bind, Except.bind]

theorem RowsAlike.encodeIndexCols (h : RowsAlike d.columns row row') (idx : IndexDef) :
    ImmutableLedger.encodeIndexCols d idx row = ImmutableLedger.encodeIndexCols d idx row' :=
  h.encodeIndexOrds idx idx.colOrds

end

/-! ## Rows of a table -/

/-- A row of the engine for a table: its values have the Go types of their columns. (A Go slice is shorter than `2^63`.) -/
structure EngineRow (G : GoLib) (cols : List ColDef) (row : Row) : Prop where
  typed : List.Forall₂ (fun c o => ∀ v ∈ o, GoVal.FitsType G.round32 c.qtype v) cols row
  short : ∀ data, encodeRow cols row = .ok data → data.length < 2 ^ 63

/-- The row as it comes back from the store. -/
def Row.stored (row : Row) : Row := row.map (Option.map GoVal.stored)

theorem rowReads_of_typed {cols : List ColDef} {row : Row}
    (h : List.Forall₂ (fun c o => ∀ v ∈ o, GoVal.FitsType round32 c.qtype v) cols row) :
    RowReads round32 cols row (Row.stored row) := by
  induction h with
  | nil => exact .nil
  | @cons c o cols row hcol _ ih =>
    cases o with
    | none => exact .null ih
    | some v => exact .value (fieldReads_of_fits (hcol v rfl)) ih

theorem alike_of_typed {cols : List ColDef} {row : Row}
    (h : List.Forall₂ (fun c o => ∀ v ∈ o, GoVal.FitsType round32 c.qtype v) cols row) :
    RowsAlike cols row (Row.stored row) := by
  induction h with
  | nil => exact .nil
  | @cons c o cols row hcol _ ih =>
    cases o with
    | none => exact .null ih
    | some v => exact .value (alike_stored (fieldReads_of_fits (hcol v rfl))) ih

section
variable {cols : List ColDef} {row : Row}

theorem EngineRow.alike (h : EngineRow G cols row) : RowsAlike cols row (Row.stored row) := alike_of_typed h.typed

/-- What is read back is a row of the engine, too. -/
theorem EngineRow.storedRow (h : EngineRow G cols row) : EngineRow G cols (Row.stored row) := by
  refine ⟨?_, fun data henc => h.short data (h.alike.encodeRow.trans henc)⟩
  have htyped := h.typed
  clear h
  induction htyped with
  | nil => exact .nil
  | @cons c o cols row hcol _ ih =>
    refine .cons (fun w hw => ?_) ih
    cases o with
    | none => cases hw
    | some v =>
      obtain rfl : v.stored = w := Option.some.inj hw
      exact (hcol v rfl).stored

/-- **A row of the engine encodes, and decodes to its stored form.** -/
theorem EngineRow.decodes (h : EngineRow G cols row) :
    ∃ data, encodeRow cols row = .ok data ∧ decodeRow G.round32 cols data = .ok (Row.stored row) := by
  obtain ⟨data, henc, hdec⟩ := (rowReads_of_typed h.typed).decodeRow
  exact ⟨data, henc, hdec (h.short data henc)⟩

end

end ImmutableLedger
