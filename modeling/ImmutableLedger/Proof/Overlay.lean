import ImmutableLedger.Proof.Scan
import ImmutableLedger.Proof.KeySpace

/-!
# The overlay of a transaction

What a transaction's buffer adds to a scan of a keyspace and what it hides: the entry of each new row in the range is
added, the entry of each old row in the range is hidden or replaced.

* `overlayRow_spec`, `overlayRows_spec`: one buffered row, and the loop over them.
* `buildOverlay_spec`: the finished overlay.
-/

namespace ImmutableLedger

open EStateM SortedMerge ScanOverlay LedgerIndex

/-! ## The overlay -/

namespace ScanOverlay

variable {start stop k k' pk : Bytes} {ov : ScanOverlay}

theorem adds_mask : (ov.mask start stop k).adds = ov.adds := by
  unfold mask
  split <;> rfl

theorem masked_mask :
    (ov.mask start stop k').masked k = true ↔ ov.masked k = true ∨ inRange start stop k' ∧ k = k' := by
  unfold mask
  split
  · rename_i hr
    unfold masked
    rw [OrdMap.get_insert]
    by_cases hk : k = k' <;> simp [hk, hr]
  · rename_i hr
    simp [hr]

theorem mem_adds_add {kv : Bytes × Bytes} :
    kv ∈ (ov.add start stop k pk).adds ↔ kv ∈ ov.adds ∨ inRange start stop k ∧ kv = (k, pk) := by
  unfold add
  split
  · rename_i hr
    simp [hr]
  · rename_i hr
    simp [hr]

theorem masked_add : (ov.add start stop k' pk).masked k = true ↔
    ov.masked k = true ∧ ¬ (inRange start stop k' ∧ k = k') := by
  unfold add
  split
  · rename_i hr
    unfold masked
    rw [OrdMap.get_erase]
    by_cases hk : k = k' <;> simp [hk, hr]
  · rename_i hr
    simp [hr]

end ScanOverlay

variable {x : LedgerIndex} {start stop : Bytes}

/-- `k` is the key in range of the row, if there is one, under the primary-key bytes `pk`. -/
def Keyed (x : LedgerIndex) (start stop pk : Bytes) (o : Option Row) (k : Bytes) : Prop :=
  ScanOverlay.inRange start stop k ∧ ∃ row, o = some row ∧ x.keyAt pk row = .ok k

section
variable {pk k k' : Bytes} {p : PendingRow} {ov ov₁ ov' : ScanOverlay} {o : Option Row} {row : Row}

theorem not_keyed_none : ¬ Keyed x start stop pk none k := by
  rintro ⟨-, row, h, -⟩
  cases h

theorem keyed_some (hk : x.keyAt pk row = .ok k') :
    Keyed x start stop pk (some row) k ↔ ScanOverlay.inRange start stop k' ∧ k = k' := by
  constructor
  · rintro ⟨hr, row', hrow, hk'⟩
    cases hrow
    rw [hk] at hk'
    cases hk'
    exact ⟨hr, rfl⟩
  · rintro ⟨hr, rfl⟩
    exact ⟨hr, row, rfl, hk⟩

theorem Keyed.pk_eq {pk' : Bytes} {o' : Option Row} (h : Keyed x start stop pk o k) (h' : Keyed x start stop pk' o' k) :
    pk = pk' := by
  obtain ⟨-, row, -, hk⟩ := h
  obtain ⟨-, row', -, hk'⟩ := h'
  exact keyAt_inj hk hk'

/-- Every row of the entry has a key. -/
def HasKeys (x : LedgerIndex) (pk : Bytes) (p : PendingRow) : Prop :=
  ∀ row, p.old = some row ∨ p.new = some row → ∃ k, x.keyAt pk row = .ok k

/-- What one buffered row does to the overlay: its new row's entry is added, its old row's is hidden unless it is the
same. -/
structure Overlaid (x : LedgerIndex) (start stop pk : Bytes) (p : PendingRow) (ov ov' : ScanOverlay) : Prop where
  mem_adds : ∀ kv, kv ∈ ov'.adds ↔ kv ∈ ov.adds ∨ Keyed x start stop pk p.new kv.1 ∧ kv.2 = pk
  keys : ov.adds.Pairwise (fun a b => a.1 ≠ b.1) → (∀ kv ∈ ov.adds, ¬ Keyed x start stop pk p.new kv.1) →
    ov'.adds.Pairwise fun a b => a.1 ≠ b.1
  hides : ∀ k, ov'.masked k = true → ov.masked k = true ∨ Keyed x start stop pk p.old k
  hidden : ∀ k, ov.masked k = true ∨ Keyed x start stop pk p.old k →
    ov'.masked k = true ∨ Keyed x start stop pk p.new k

/-- The overlay with the old row's entry hidden, where it is not the new row's. -/
structure OldHidden (x : LedgerIndex) (start stop pk : Bytes) (p : PendingRow) (ov ov₁ : ScanOverlay) : Prop where
  adds : ov₁.adds = ov.adds
  hides : ∀ k, ov₁.masked k = true → ov.masked k = true ∨ Keyed x start stop pk p.old k
  hidden : ∀ k, ov.masked k = true ∨ Keyed x start stop pk p.old k →
    ov₁.masked k = true ∨ Keyed x start stop pk p.new k

theorem OldHidden.of_none (h : p.old = none) : OldHidden x start stop pk p ov ov := by
  refine ⟨rfl, fun k hk => .inl hk, fun k hk => .inl (hk.resolve_right fun hold => ?_)⟩
  rw [h] at hold
  exact not_keyed_none hold

theorem OldHidden.mask (h : p.old = some row) (hk : x.keyAt pk row = .ok k) :
    OldHidden x start stop pk p ov (ov.mask start stop k) := by
  refine ⟨adds_mask, fun k' hm => ?_, fun k' hm => .inl ?_⟩
  · rw [h, keyed_some hk]
    exact masked_mask.1 hm
  · rw [h, keyed_some hk] at hm
    exact masked_mask.2 hm

theorem OldHidden.delete (h : OldHidden x start stop pk p ov ov₁) (hnew : p.new = none) :
    Overlaid x start stop pk p ov ov₁ := by
  refine ⟨fun kv => ?_, fun hp _ => h.adds ▸ hp, h.hides, h.hidden⟩
  rw [h.adds, hnew]
  exact ⟨.inl, fun hkv => hkv.resolve_right fun hnone => not_keyed_none hnone.1⟩

theorem OldHidden.put (h : OldHidden x start stop pk p ov ov₁) (hnew : p.new = some row) (hk : x.keyAt pk row = .ok k) :
    Overlaid x start stop pk p ov (ov₁.add start stop k pk) := by
  have hkeyed : ∀ {k'}, Keyed x start stop pk p.new k' ↔ ScanOverlay.inRange start stop k ∧ k' = k := by
    intro k'
    rw [hnew]
    exact keyed_some hk
  refine ⟨fun kv => ?_, fun hp hfresh => ?_, fun k' hm => h.hides k' (masked_add.1 hm).1, fun k' hm => ?_⟩
  · rw [mem_adds_add, h.adds, hkeyed, Prod.ext_iff, and_assoc]
  · unfold ScanOverlay.add
    split
    · rename_i hr
      refine List.pairwise_append.2 ⟨h.adds ▸ hp, List.pairwise_singleton _ _, fun kv hkv kv' hkv' he => ?_⟩
      rw [h.adds] at hkv
      obtain rfl := List.mem_singleton.1 hkv'
      exact hfresh kv hkv (hkeyed.2 ⟨hr, he⟩)
    · exact h.adds ▸ hp
  · by_cases hput : Keyed x start stop pk p.new k'
    · exact .inr hput
    · have hm₁ := (h.hidden k' hm).resolve_right hput
      exact .inl (masked_add.2 ⟨hm₁, fun hkk => hput (hkeyed.2 hkk)⟩)

/-- In the primary keyspace the new row has the key of the old one. -/
theorem OldHidden.primary (hidx : x.idx = none) (hnew : p.new = some row) : OldHidden x start stop pk p ov ov := by
  have hkey : ∀ row, x.keyAt pk row = .ok (scanKey x.tdef.id pk) := by
    intro row
    unfold keyAt
    rw [hidx]
  refine ⟨rfl, fun k hk => .inl hk, fun k hk => hk.imp_right ?_⟩
  rintro ⟨hr, old, -, hold⟩
  rw [hkey] at hold
  cases hold
  exact ⟨hr, row, hnew, hkey row⟩

/-- **One buffered row.** -/
theorem overlayRow_spec (hkeys : HasKeys x pk p) (ov : ScanOverlay) :
    ∃ ov', overlayRow x.tdef x.idx start stop ov pk p = .ok ov' ∧ Overlaid x start stop pk p ov ov' := by
  unfold overlayRow
  cases hidx : x.idx with
  | none =>
    have hkey : ∀ row, x.keyAt pk row = .ok (scanKey x.tdef.id pk) := by
      intro row
      unfold keyAt
      rw [hidx]
    cases hnew : p.new with
    | some row => exact ⟨_, rfl, (OldHidden.primary hidx hnew).put hnew (hkey row)⟩
    | none =>
      cases hold : p.old with
      | none => exact ⟨_, rfl, (OldHidden.of_none hold).delete hnew⟩
      | some old => exact ⟨_, rfl, (OldHidden.mask hold (hkey old)).delete hnew⟩
  | some idx =>
    have hcols : ∀ row, p.old = some row ∨ p.new = some row → ∃ cols,
        encodeIndexCols x.tdef idx row = .ok cols ∧ x.keyAt pk row = .ok (entryKey idx.id cols.1 pk) := by
      intro row hrow
      obtain ⟨k, hk⟩ := hkeys row hrow
      rcases keyAt_cases hk with ⟨hnone, -⟩ | ⟨idx', cols, hidx', hcols, rfl⟩
      · rw [hidx] at hnone
        cases hnone
      · rw [hidx] at hidx'
        cases hidx'
        exact ⟨cols, hcols, hk⟩
    cases hold : p.old with
    | none =>
      cases hnew : p.new with
      | none => exact ⟨ov, rfl, (OldHidden.of_none hold).delete hnew⟩
      | some new =>
        obtain ⟨cols, hc, hk⟩ := hcols new (.inr hnew)
        refine ⟨ov.add start stop (entryKey idx.id cols.1 pk) pk, ?_, (OldHidden.of_none hold).put hnew hk⟩
        simp only [hc]
        rfl
    | some old =>
      obtain ⟨cols, hc, hk⟩ := hcols old (.inl hold)
      cases hnew : p.new with
      | none =>
        refine ⟨ov.mask start stop (entryKey idx.id cols.1 pk), ?_, (OldHidden.mask hold hk).delete hnew⟩
        simp only [hc]
        rfl
      | some new =>
        obtain ⟨cols', hc', hk'⟩ := hcols new (.inr hnew)
        refine ⟨(ov.mask start stop (entryKey idx.id cols.1 pk)).add start stop (entryKey idx.id cols'.1 pk) pk, ?_,
          (OldHidden.mask hold hk).put hnew hk'⟩
        simp only [hc, hc']
        rfl

end

/-- What the buffered rows `rows` add and hide. -/
structure OverlayOf (x : LedgerIndex) (start stop : Bytes) (rows : List (Bytes × PendingRow)) (ov : ScanOverlay) :
    Prop where
  mem_adds : ∀ kv, kv ∈ ov.adds ↔ ∃ p, (kv.2, p) ∈ rows ∧ Keyed x start stop kv.2 p.new kv.1
  keys : ov.adds.Pairwise fun a b => a.1 ≠ b.1
  hides : ∀ k, ov.masked k = true → ∃ e ∈ rows, Keyed x start stop e.1 e.2.old k
  hidden : ∀ k, (∃ e ∈ rows, Keyed x start stop e.1 e.2.old k) → ov.masked k = true ∨ ∃ v, (k, v) ∈ ov.adds

theorem OverlayOf.step {rows : List (Bytes × PendingRow)} {ov ov' : ScanOverlay} {pk : Bytes} {p : PendingRow}
    (h : OverlayOf x start stop rows ov) (hpk : ∀ e ∈ rows, e.1 ≠ pk) (hstep : Overlaid x start stop pk p ov ov') :
    OverlayOf x start stop (rows ++ [(pk, p)]) ov' := by
  have hmem : ∀ kv, kv ∈ ov'.adds ↔ ∃ q, (kv.2, q) ∈ rows ++ [(pk, p)] ∧ Keyed x start stop kv.2 q.new kv.1 := by
    intro kv
    rw [hstep.mem_adds, h.mem_adds]
    constructor
    · rintro (⟨q, hq, hk⟩ | ⟨hk, rfl⟩)
      · exact ⟨q, List.mem_append_left _ hq, hk⟩
      · exact ⟨p, List.mem_append_right _ List.mem_cons_self, hk⟩
    · rintro ⟨q, hq, hk⟩
      rcases List.mem_append.1 hq with hq | hq
      · exact .inl ⟨q, hq, hk⟩
      · cases List.mem_singleton.1 hq
        exact .inr ⟨hk, rfl⟩
  refine ⟨hmem, hstep.keys h.keys fun kv hkv hput => ?_, fun k hk => ?_, fun k hk => ?_⟩
  · -- a key belongs to one primary key, and this one is new
    obtain ⟨q, hq, hk⟩ := (h.mem_adds kv).1 hkv
    exact hpk _ hq (hk.pk_eq hput)
  · rcases hstep.hides k hk with hk | hk
    · obtain ⟨e, he, hk⟩ := h.hides k hk
      exact ⟨e, List.mem_append_left _ he, hk⟩
    · exact ⟨_, List.mem_append_right _ List.mem_cons_self, hk⟩
  · obtain ⟨e, he, hk⟩ := hk
    -- what is added stays added
    have hstay : (∃ v, (k, v) ∈ ov.adds) → ∃ v, (k, v) ∈ ov'.adds := fun ⟨v, hv⟩ => ⟨v, (hstep.mem_adds _).2 (.inl hv)⟩
    have hnew : ov.masked k = true ∨ Keyed x start stop pk p.old k → ov'.masked k = true ∨ ∃ v, (k, v) ∈ ov'.adds :=
      fun hk => (hstep.hidden k hk).imp_right fun hput => ⟨pk, (hstep.mem_adds _).2 (.inr ⟨hput, rfl⟩)⟩
    rcases List.mem_append.1 he with he | he
    · rcases h.hidden k ⟨e, he, hk⟩ with hm | hadd
      · exact hnew (.inl hm)
      · exact .inr (hstay hadd)
    · cases List.mem_singleton.1 he
      exact hnew (.inr hk)

/-- **The loop over the buffered rows.** -/
theorem overlayRows_spec : ∀ {rows seen : List (Bytes × PendingRow)} {ov : ScanOverlay},
    (seen ++ rows).Pairwise (fun a b => a.1 ≠ b.1) → (∀ e ∈ rows, HasKeys x e.1 e.2) → OverlayOf x start stop seen ov →
    ∃ ov', overlayRows x.tdef x.idx start stop ov rows = .ok ov' ∧ OverlayOf x start stop (seen ++ rows) ov' := by
  intro rows
  induction rows with
  | nil =>
    intro seen ov _ _ h
    exact ⟨ov, rfl, by rwa [List.append_nil]⟩
  | cons e rows ih =>
    intro seen ov hd hkeys h
    obtain ⟨pk, p⟩ := e
    obtain ⟨ov₁, hrow, hstep⟩ := overlayRow_spec (hkeys (pk, p) List.mem_cons_self) ov
    have hpk : ∀ e ∈ seen, e.1 ≠ pk := fun e he => (List.pairwise_append.1 hd).2.2 e he (pk, p) List.mem_cons_self
    have happ : seen ++ (pk, p) :: rows = seen ++ [(pk, p)] ++ rows := by rw [List.append_assoc]; rfl
    rw [happ] at hd ⊢
    obtain ⟨ov', hrows, hov⟩ := ih hd (fun e he => hkeys e (List.mem_cons_of_mem _ he)) (h.step hpk hstep)
    refine ⟨ov', ?_, hov⟩
    unfold overlayRows
    rw [hrow]
    exact hrows

theorem OverlayOf.nil (x : LedgerIndex) (start stop : Bytes) : OverlayOf x start stop [] {} := by
  refine ⟨fun kv => ⟨fun h => (by cases h), fun ⟨p, h, _⟩ => (by cases h)⟩, List.Pairwise.nil, fun k h => ?_,
    fun k h => ?_⟩
  · cases h
  · obtain ⟨e, he, -⟩ := h
    cases he

/-! ## The finished overlay -/

theorem get_foldl_erase {V W : Type} (l : List (Bytes × W)) : ∀ (m : OrdMap Bytes V) (k : Bytes),
    (l.foldl (fun m kv => m.erase kv.1) m).get k = if ∃ kv ∈ l, kv.1 = k then none else m.get k := by
  induction l with
  | nil => intro m k; simp
  | cons kv l ih =>
    intro m k
    rw [List.foldl_cons, ih, OrdMap.get_erase]
    by_cases hk : kv.1 = k
    · simp [hk]
    · by_cases hl : ∃ kv' ∈ l, kv'.1 = k
      · rw [if_pos hl, if_pos (by obtain ⟨kv', h, h'⟩ := hl; exact ⟨kv', List.mem_cons_of_mem _ h, h'⟩)]
      · rw [if_neg hl, if_neg (Ne.symm hk), if_neg]
        rintro ⟨kv', h, h'⟩
        rcases List.mem_cons.1 h with rfl | h
        · exact hk h'
        · exact hl ⟨kv', h, h'⟩

theorem mem_sortEntries {adds : List (Bytes × Bytes)} {kv : Bytes × Bytes} : kv ∈ sortEntries adds ↔ kv ∈ adds :=
  List.mem_insertionSort _

theorem asc_sortEntries {adds : List (Bytes × Bytes)} (h : adds.Pairwise fun a b => a.1 ≠ b.1) :
    Asc (sortEntries adds) := by
  have htotal : Std.Total fun a b : Bytes × Bytes => a.1 ≤ b.1 := ⟨fun a b => le_total a.1 b.1⟩
  have htrans : IsTrans (Bytes × Bytes) fun a b => a.1 ≤ b.1 := ⟨fun _ _ _ => le_trans⟩
  have hle : (sortEntries adds).Pairwise fun a b => a.1 ≤ b.1 := List.pairwise_insertionSort _ adds
  have hne : (sortEntries adds).Pairwise fun a b => a.1 ≠ b.1 :=
    h.perm (List.perm_insertionSort _ adds).symm fun hab => hab.symm
  exact (hle.and hne).imp fun hab => lt_of_le_of_ne hab.1 hab.2

/-- **What the overlay of a buffer adds and hides.** -/
theorem buildOverlay_spec {tt : TableTxn} (hkeys : ∀ pk p, tt.get pk = some p → HasKeys x pk p) (start stop : Bytes) :
    ∃ ov, buildOverlay x.tdef tt x.idx start stop = .ok ov ∧ Asc (ov.getD {}).adds ∧
      OverlayOf x start stop tt.entries (ov.getD {}) := by
  have hdistinct : List.Pairwise (fun a b => a.1 ≠ b.1) ([] ++ tt.entries) := tt.sorted.imp fun h => h.ne
  have hkeys' : ∀ e ∈ tt.entries, HasKeys x e.1 e.2 := fun e he => hkeys e.1 e.2 (OrdMap.mem_entries.1 he)
  obtain ⟨ov, hrows, hov⟩ := overlayRows_spec hdistinct hkeys' (OverlayOf.nil x start stop)
  rw [List.nil_append] at hov
  unfold buildOverlay
  by_cases hempty : tt.entries = []
  · rw [if_pos hempty, hempty]
    exact ⟨none, rfl, List.Pairwise.nil, OverlayOf.nil x start stop⟩
  · rw [if_neg hempty, hrows]
    by_cases hnone : ov.adds = [] ∧ ov.masks.entries = []
    · -- nothing to merge: no overlay does the same
      have hov' : ov = {} := by
        obtain ⟨adds, masks⟩ := ov
        obtain ⟨rfl, hmasks⟩ := hnone
        have hm : masks = OrdMap.empty := OrdMap.ext hmasks
        rw [hm]
      refine ⟨none, if_pos hnone, List.Pairwise.nil, ?_⟩
      rw [hov'] at hov
      exact hov
    · refine ⟨_, if_neg hnone, asc_sortEntries hov.keys, ?_, (asc_sortEntries hov.keys).imp fun h => h.ne, ?_, ?_⟩
      · intro kv
        exact mem_sortEntries.trans (hov.mem_adds kv)
      · intro k hk
        refine hov.hides k ?_
        simp only [Option.getD_some, masked, get_foldl_erase] at hk
        split at hk
        · cases hk
        · exact hk
      · intro k hk
        by_cases hadd : ∃ kv ∈ ov.adds, kv.1 = k
        · obtain ⟨⟨k', v⟩, hkv, rfl⟩ := hadd
          exact .inr ⟨v, mem_sortEntries.2 hkv⟩
        · refine .inl ?_
          simp only [Option.getD_some, masked, get_foldl_erase, if_neg hadd]
          exact (hov.hidden k hk).resolve_right fun ⟨v, hv⟩ => hadd ⟨(k, v), hv, rfl⟩

end ImmutableLedger
