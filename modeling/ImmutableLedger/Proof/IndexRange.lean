import ImmutableLedger.Sql.Range
import ImmutableLedger.Sql.Keys
import ImmutableLedger.Proof.IndexOrder

/-!
# Index ranges never miss a row

The bounds of a range contain the key of every row whose columns lie within the range's cuts: the exact columns are
common to the bounds and the key, the first other column is on the right side of both bounds, and what follows it in
the key does not matter because no key form is a prefix of another.

* `boundedStart_le`, `lt_boundedEnd`: one column against one cut.
* `index_range_covers`: the bounds of a range.
-/

namespace ImmutableLedger

open KeyOrder

/-! ## Cuts -/

/-- The cut lies below the value. -/
def Cut.Under (kind : ColKind) : Cut → Option Scalar → Prop
  | .belowNull, _ => True
  | .aboveNull, o => o ≠ none
  | .below key, o => ∃ x w, o = some x ∧ coerce kind key = .ok w ∧ ¬ x.lt w
  | .above key, o => ∃ x w, o = some x ∧ coerce kind key = .ok w ∧ w.lt x
  | .aboveAll, _ => False

/-- The value of the cut is one of the kind's. -/
def Cut.OfKind (kind : ColKind) : Cut → Prop
  | .below key | .above key => ∃ w, coerce kind key = .ok w ∧ w.OfKind kind
  | _ => True

/-- The value lies between the cuts of a range for the column `ord`. -/
def ColRange.Holds (r : ColRange) (d : TableDef) (ord : ℕ) (o : Option Scalar) : Prop :=
  ∃ c kind, d.columns[ord]? = some c ∧ c.kind = .ok kind ∧ r.lower.OfKind kind ∧ r.upper.OfKind kind ∧
    (∀ x ∈ o, x.OfKind kind) ∧ r.lower.Under kind o ∧ ¬ r.upper.Under kind o

/-- The values of the columns `ords` lie within the range, as far as both go. -/
def InCuts (d : TableDef) : List ColRange → List ℕ → List (Option Scalar) → Prop
  | r :: rng, ord :: ords, o :: ys => r.Holds d ord o ∧ InCuts d rng ords ys
  | _, _, _ => True

/-! ## One column -/

theorem lt_incBytes {p q : Bytes} (h : incBytes p = some q) (t : Bytes) : p ++ t < q :=
  ((mem_range_iff h).2 (List.prefix_append p t)).2

theorem incBytes_le {p q k : Bytes} (h : incBytes p = some q) (hle : p ≤ k) (hpre : ¬ p <+: k) : q ≤ k := by
  by_contra hlt
  exact hpre ((mem_range_iff h).1 ⟨hle, not_le.1 hlt⟩)

/-- What one column adds to a key. -/
def colPut (marker : UInt8) : Option Scalar → Bytes
  | none => [0]
  | some x => (if marker ≠ 0 then [marker] else []) ++ x.key

theorem withMarker_eq (pre : Bytes) (marker : UInt8) (x : Scalar) :
    withMarker pre marker x.key = pre ++ colPut marker (some x) := List.append_assoc _ _ _

section
variable {pre start stop : Bytes} {marker : UInt8} {kind : ColKind} {cut : Cut} {o : Option Scalar}

theorem encodeCut_eq {key : GoVal} {w : Scalar} (h : coerce kind key = .ok w) : encodeCut kind key = .ok w.key := by
  unfold encodeCut encodeKeyCol
  rw [h]
  rfl

/-- A NULL comes before every present value. -/
theorem null_lt (hm : marker ≠ 0) (x : Scalar) (r t : Bytes) : colPut marker none ++ r < colPut marker (some x) ++ t := by
  unfold colPut
  rw [if_pos hm]
  exact List.cons_lt_cons_iff.2 (.inl (UInt8.pos_iff_ne_zero.2 hm))

theorem colPut_lt (marker : UInt8) {x y : Scalar} (hx : x.OfKind kind) (hy : y.OfKind kind) (h : x.lt y) (r t : Bytes) :
    colPut marker (some x) ++ r < colPut marker (some y) ++ t := by
  unfold colPut
  rw [List.append_assoc, List.append_assoc, Bytes.append_left_lt]
  exact (keeps_key kind).append_lt hx hy h r t

/-- **A cut below the value gives a bound below its key.** -/
theorem boundedStart_le (hb : boundedStart pre marker kind cut = some start) (hcut : cut.OfKind kind)
    (ho : ∀ x ∈ o, x.OfKind kind) (hu : cut.Under kind o) (t : Bytes) : start ≤ pre ++ (colPut marker o ++ t) := by
  cases cut with
  | belowNull =>
    cases hb
    exact Bytes.le_append _ _
  | aboveNull =>
    obtain ⟨x, rfl⟩ := Option.ne_none_iff_exists'.1 hu
    simp only [boundedStart, Option.some.injEq] at hb
    subst hb
    split
    · exact Bytes.le_append _ _
    · rename_i hm
      have hkey : pre ++ (colPut marker (some x) ++ t) = pre ++ [marker] ++ (x.key ++ t) := by
        unfold colPut
        rw [if_pos hm, List.append_assoc, List.append_assoc]
      rw [hkey]
      exact Bytes.le_append _ _
  | below key =>
    obtain ⟨x, w, rfl, hw, hle⟩ := hu
    obtain ⟨w', hw', hk⟩ := hcut
    rw [hw] at hw'
    cases hw'
    simp only [boundedStart, encodeCut_eq hw, Except.toOption, Option.map_some, Option.some.injEq] at hb
    rw [← hb, withMarker_eq]
    rcases (keeps_key kind).total hk (ho x rfl) with hlt | rfl | hgt
    · have hput := colPut_lt marker hk (ho x rfl) hlt [] t
      rw [List.append_nil] at hput
      exact (Bytes.append_left_lt.2 hput).le
    · rw [← List.append_assoc]
      exact Bytes.le_append _ _
    · exact absurd hgt hle
  | above key =>
    obtain ⟨x, w, rfl, hw, hlt⟩ := hu
    obtain ⟨w', hw', hk⟩ := hcut
    rw [hw] at hw'
    cases hw'
    simp only [boundedStart, encodeCut_eq hw, Except.toOption, Option.bind_eq_bind, Option.bind_some] at hb
    rw [withMarker_eq] at hb
    have hput := colPut_lt marker hk (ho x rfl) hlt
    refine incBytes_le hb ?_ ?_
    · have h₁ := hput [] t
      rw [List.append_nil] at h₁
      exact (Bytes.append_left_lt.2 h₁).le
    · -- the key of a greater value does not start with the key of the cut
      rintro ⟨r, hr⟩
      have h₁ := hput r t
      rw [List.append_assoc] at hr
      rw [List.append_cancel_left hr] at h₁
      exact lt_irrefl _ h₁
  | aboveAll => cases hb

/-- **A cut above the value gives a bound above its key.** -/
theorem lt_boundedEnd (hb : boundedEnd pre marker kind cut = some stop) (hcut : cut.OfKind kind)
    (ho : ∀ x ∈ o, x.OfKind kind) (hm : o = none → marker ≠ 0) (hu : ¬ cut.Under kind o) (t : Bytes) :
    pre ++ (colPut marker o ++ t) < stop := by
  cases cut with
  | belowNull => cases hb
  | aboveNull =>
    have hnone : o = none := not_not.1 hu
    subst hnone
    have hmark := hm rfl
    simp only [boundedEnd, if_neg hmark, Option.some.injEq] at hb
    subst hb
    exact Bytes.append_left_lt.2 (List.cons_lt_cons_iff.2 (.inl (UInt8.pos_iff_ne_zero.2 hmark)))
  | below key =>
    obtain ⟨w, hw, hk⟩ := hcut
    simp only [boundedEnd, encodeCut_eq hw, Except.toOption, Option.map_some, Option.some.injEq] at hb
    rw [← hb, withMarker_eq, Bytes.append_left_lt]
    cases o with
    | none =>
      have hlt := null_lt (hm rfl) w t []
      rwa [List.append_nil] at hlt
    | some x =>
      have hxw : x.lt w := by
        by_contra hnot
        exact hu ⟨x, w, rfl, hw, hnot⟩
      have hlt := colPut_lt marker (ho x rfl) hk hxw t []
      rwa [List.append_nil] at hlt
  | above key =>
    obtain ⟨w, hw, hk⟩ := hcut
    simp only [boundedEnd, encodeCut_eq hw, Except.toOption, Option.bind_eq_bind, Option.bind_some] at hb
    rw [withMarker_eq] at hb
    have hend := lt_incBytes hb []
    rw [List.append_assoc] at hend
    cases o with
    | none => exact (Bytes.append_left_lt.2 (null_lt (hm rfl) w t [])).trans hend
    | some x =>
      rcases (keeps_key kind).total (ho x rfl) hk with hlt | rfl | hgt
      · exact (Bytes.append_left_lt.2 (colPut_lt marker (ho x rfl) hk hlt t [])).trans hend
      · have hx := lt_incBytes hb t
        rwa [List.append_assoc] at hx
      · exact absurd ⟨x, w, rfl, hw, hgt⟩ hu
  | aboveAll => exact lt_incBytes hb _

end

/-! ## Ranges -/

namespace LedgerIndex

variable {x : LedgerIndex}

theorem marker_ne_zero (h : x.idx ≠ none) : x.marker ≠ 0 := by
  unfold marker
  rw [if_neg (by simpa using h)]
  decide

/-- The bounds of the columns from `ords` on contain every key that goes on after `pre` with values within the cuts. -/
theorem boundsFrom_covers : ∀ {rng : List ColRange} {ords : List ℕ} {ys : List (Option Scalar)} {pre start stop : Bytes},
    x.boundsFrom pre rng ords = .ok (some (start, stop)) → ords.length = ys.length → InCuts x.tdef rng ords ys →
    (x.idx = none → none ∉ ys) → ∀ t, start ≤ pre ++ (ys.flatMap (colPut x.marker) ++ t) ∧
      pre ++ (ys.flatMap (colPut x.marker) ++ t) < stop := by
  intro rng
  -- the columns are exhausted: all strings that start with `pre`
  have hall : ∀ {pre start stop : Bytes} {rest : Bytes},
      (.ok ((incBytes pre).map fun stop => (pre, stop)) : Except SqlErr _) = .ok (some (start, stop)) →
      start ≤ pre ++ rest ∧ pre ++ rest < stop := by
    intro pre start stop rest h
    obtain ⟨q, hq, he⟩ := Option.map_eq_some_iff.1 (Except.ok.inj h)
    cases he
    exact ⟨Bytes.le_append _ _, lt_incBytes hq _⟩
  induction rng with
  | nil =>
    intro ords ys pre start stop hb _ _ _ t
    exact hall hb
  | cons r rng ih =>
    intro ords ys pre start stop hb hlen hcuts hnull t
    cases ords with
    | nil => exact hall hb
    | cons ord ords =>
      obtain ⟨o, ys, rfl⟩ := List.exists_cons_of_length_eq_add_one hlen.symm
      obtain ⟨⟨c, kind, hc, hk, hlo, hup, ho, hunder, hover⟩, hrest⟩ := hcuts
      have hlen' : ords.length = ys.length := Nat.succ.inj hlen
      have hnull' : x.idx = none → none ∉ ys := fun hx hmem => hnull hx (List.mem_cons_of_mem _ hmem)
      have hm : o = none → x.marker ≠ 0 := by
        rintro rfl
        exact marker_ne_zero fun hx => hnull hx List.mem_cons_self
      rw [List.flatMap_cons, List.append_assoc]
      have hbounded : (.ok (boundedColumn pre x.marker kind r) : Except SqlErr _) = .ok (some (start, stop)) →
          start ≤ pre ++ (colPut x.marker o ++ (ys.flatMap (colPut x.marker) ++ t)) ∧
            pre ++ (colPut x.marker o ++ (ys.flatMap (colPut x.marker) ++ t)) < stop := by
        intro h
        unfold boundedColumn at h
        obtain ⟨a, ha, h₁⟩ := Option.bind_eq_some_iff.1 (Except.ok.inj h)
        obtain ⟨b, hb', h₂⟩ := Option.bind_eq_some_iff.1 h₁
        cases h₂
        exact ⟨boundedStart_le ha hlo ho hunder _, lt_boundedEnd hb' hup ho hm hover _⟩
      unfold boundsFrom at hb
      simp only [TableDef.columnAt, hc, bind, Except.bind, hk] at hb
      split at hb
      · -- an exact NULL
        rename_i hexact
        have hnone : o = none := by
          rw [hexact.2.1] at hover
          exact not_not.1 hover
        have h := ih hb hlen' hrest hnull' t
        rw [hnone]
        rw [List.append_assoc] at h
        exact h
      · split at hb
        · rename_i lb ub hl hu
          split at hb
          · rename_i lenc uenc hlb hub
            split at hb
            · -- an exact value: the two cuts are around one value, which is the row's
              rename_i heq
              rw [hl] at hlo hunder
              rw [hu] at hup hover
              obtain ⟨w, hw, hwk⟩ := hlo
              obtain ⟨w', hw', hwk'⟩ := hup
              obtain ⟨v, w₁, rfl, hw₁, hle⟩ := hunder
              rw [hw] at hw₁
              cases hw₁
              rw [encodeCut_eq hw] at hlb
              rw [encodeCut_eq hw'] at hub
              cases hlb
              cases hub
              have hww : w = w' := (keeps_key kind).inj hwk hwk' heq
              subst hww
              have hv : v = w := by
                rcases (keeps_key kind).total (ho v rfl) hwk with hlt | he | hgt
                · exact absurd hlt hle
                · exact he
                · exact absurd ⟨v, w, rfl, hw', hgt⟩ hover
              subst hv
              have h := ih hb hlen' hrest hnull' t
              rw [withMarker_eq, List.append_assoc] at h
              exact h
            · exact hbounded hb
          · cases hb
        · exact hbounded hb

/-- The row's key in the keyspace of the index. -/
def keyOf (x : LedgerIndex) (row : Row) : Except SqlErr Bytes := do
  let pkEnc ← encodePK x.tdef row
  match x.idx with
  | none => pure (scanKey x.tdef.id pkEnc)
  | some idx => do
    let (colsEnc, _) ← encodeIndexCols x.tdef idx row
    pure (entryKey idx.id colsEnc pkEnc)

/-- A primary key that encodes has no NULL. -/
theorem some_of_encodePKCols {d : TableDef} {row : Row} {ords : List ℕ} {ys : List (Option Scalar)}
    (h : List.Forall₂ (ColValue d row) ords ys) : ∀ {pk : Bytes}, encodePKCols d row ords = .ok pk →
    none ∉ ys ∧ pk = ys.flatMap (colPut 0) := by
  induction h with
  | nil =>
    intro pk hpk
    cases hpk
    exact ⟨List.not_mem_nil, rfl⟩
  | cons hcol _ ih =>
    intro pk hpk
    unfold encodePKCols at hpk
    cases hcol with
    | null hv =>
      simp only [rowAt, hv, bind, Except.bind] at hpk
      split at hpk <;> cases hpk
    | value hc hk hv hx _ =>
      simp only [rowAt, hv, TableDef.columnAt, hc, bind, Except.bind, hk, encodeKeyCol, hx, wrapWith, pure,
        Except.pure] at hpk
      split at hpk
      · cases hpk
      · rename_i rest hrest
        cases hpk
        obtain ⟨hnone, rfl⟩ := ih hrest
        refine ⟨fun hmem => ?_, rfl⟩
        rcases List.mem_cons.1 hmem with h | h
        · cases h
        · exact hnone h

theorem flatMap_colPut_one (ys : List (Option Scalar)) :
    ys.flatMap (colPut 1) = ys.flatMap (putOption Scalar.key) := by
  congr 1
  funext o
  cases o <;> rfl

/-- **Index ranges never miss a row.** Whatever bounds are given for a range, the key of a row whose columns lie within
the range's cuts lies within them. -/
theorem index_range_covers {rng : List ColRange} {start stop key : Bytes} {row : Row} {ys : List (Option Scalar)}
    (hb : x.rangeBounds rng = .ok (some (start, stop))) (hys : List.Forall₂ (ColValue x.tdef row) x.ords ys)
    (hcuts : InCuts x.tdef rng x.ords ys) (hkey : x.keyOf row = .ok key) : start ≤ key ∧ key < stop := by
  obtain ⟨pk, hpk, hrest⟩ := Except.ok_of_bind hkey
  have hlen := hys.length_eq
  cases hidx : x.idx with
  | none =>
    rw [hidx] at hrest
    cases hrest
    have hords : x.ords = x.tdef.pkOrds := by unfold ords; rw [hidx]
    have hspace : x.space = scanKey x.tdef.id [] := by unfold space; rw [hidx]
    have hmark : x.marker = 0 := by unfold marker; rw [hidx]; rfl
    obtain ⟨hnone, rfl⟩ := some_of_encodePKCols (hords ▸ hys) hpk
    have h := boundsFrom_covers hb hlen hcuts (fun _ => hnone) []
    rw [hspace, hmark, List.append_nil] at h
    exact h
  | some idx =>
    rw [hidx] at hrest
    obtain ⟨⟨cols, hasNull⟩, hcols, hend⟩ := Except.ok_of_bind hrest
    cases hend
    have hords : x.ords = idx.colOrds := by unfold ords; rw [hidx]
    have hspace : x.space = secondarySpace idx.id := by unfold space; rw [hidx]
    have hmark : x.marker = 1 := by unfold marker; rw [hidx]; rfl
    have hval : IndexValues x.tdef idx row ys := by
      unfold IndexValues
      rw [← hords]
      exact hys
    rw [encodeIndexCols_of_values hval] at hcols
    cases hcols
    have h := boundsFrom_covers hb hlen hcuts (fun hx => by rw [hidx] at hx; cases hx) pk
    rw [hspace, hmark, flatMap_colPut_one, ← List.append_assoc] at h
    exact h

/-- The index on name and time of birth. -/
def nameBorn : LedgerIndex := ⟨peopleDef, some ⟨1, ascii "name_born", false, [1, 2]⟩⟩

/-- People named `bob` who were born in the first second. -/
def bobFirstSecond : List ColRange :=
  [⟨.below (.string (ascii "bob")), .above (.string (ascii "bob"))⟩, ⟨.aboveNull, .below (.time 1000000000)⟩]

theorem index_range_covers_bob : ∃ start stop key, nameBorn.rangeBounds bobFirstSecond = .ok (some (start, stop)) ∧
    nameBorn.keyOf [some (.int32 7), some (.string (ascii "bob")), some (.time 5)] = .ok key ∧
    start ≤ key ∧ key < stop := by
  have hrow : List.Forall₂ (ColValue nameBorn.tdef [some (.int32 7), some (.string (ascii "bob")), some (.time 5)])
      nameBorn.ords [some (.str (ascii "bob")), some (.time 5)] :=
    .cons (.value rfl rfl rfl rfl trivial) (.cons (.value rfl rfl rfl rfl (show InNanos 5 from by decide)) .nil)
  have hbob : ColRange.Holds ⟨.below (.string (ascii "bob")), .above (.string (ascii "bob"))⟩ peopleDef 1
      (some (.str (ascii "bob"))) := by
    refine ⟨_, _, rfl, rfl, ⟨_, rfl, trivial⟩, ⟨_, rfl, trivial⟩, ?_, ⟨_, _, rfl, rfl, lt_irrefl (ascii "bob")⟩, ?_⟩
    · rintro x ⟨⟩
      trivial
    · rintro ⟨x, w, ⟨⟩, ⟨⟩, hlt⟩
      exact lt_irrefl (ascii "bob") hlt
  have hborn : ColRange.Holds ⟨.aboveNull, .below (.time 1000000000)⟩ peopleDef 2 (some (.time 5)) := by
    refine ⟨_, _, rfl, rfl, trivial, ⟨_, rfl, show InNanos 1000000000 from by decide⟩, ?_, Option.some_ne_none _, ?_⟩
    · rintro x ⟨⟩
      exact show InNanos 5 from by decide
    · rintro ⟨x, w, ⟨⟩, ⟨⟩, hle⟩
      exact hle (show (5 : ℤ) < 1000000000 from by decide)
  exact ⟨_, _, _, rfl, rfl, @index_range_covers nameBorn bobFirstSecond _ _ _ _ _ rfl hrow ⟨hbob, hborn, trivial⟩ rfl⟩

end LedgerIndex

end ImmutableLedger
