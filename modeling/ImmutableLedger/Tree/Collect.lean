import Mathlib.Data.List.FinRange
import ImmutableLedger.Ledger.Snapshot
import ImmutableLedger.Tree.Read

/-!
# Collecting leaves over an honest backend

The walk of `SnapshotLeaves` over a stored canonical tree returns the values after the resume path in path order,
cut at the page size, and reports whether any were left out.

* `Entries`: a list of all values under a position, in path order; it is the concatenation over the children.
* `yields_collectChildren`, `yields_collectLeaves`: the loop and the walk return the page (`page`).
-/

namespace ImmutableLedger

open EStateM

/-! ## Path order -/

theorem pathGreaterBytes_iff : ∀ {a b : Bytes}, a.length = b.length → (pathGreaterBytes a b = true ↔ b < a) := by
  intro a
  induction a with
  | nil =>
    intro b hlen
    rw [List.length_eq_zero_iff.1 hlen.symm]
    simp [pathGreaterBytes]
  | cons x xs ih =>
    intro b hlen
    cases b with
    | nil => cases hlen
    | cons y ys =>
      have htail := ih (Nat.succ_injective hlen)
      unfold pathGreaterBytes
      rw [List.cons_lt_cons_iff]
      by_cases hxy : x = y
      · rw [if_neg (not_not.2 hxy), htail, hxy]
        simp
      · rw [if_pos hxy, decide_eq_true_iff]
        exact ⟨fun h => .inl h, fun h => h.resolve_right fun he => hxy he.1.symm⟩

theorem pathGreater_iff {a b : Hash} : pathGreater a b = true ↔ b < a :=
  pathGreaterBytes_iff (a.size.trans b.size.symm)

/-! ## Entries under a position -/

/-- The list of the values under `pfx`, in path order. -/
structure Entries (vals : Hash → Option Bytes) (pfx : List Nib) (L : List (Hash × Bytes)) : Prop where
  sorted : L.Pairwise fun a b => a.1 < b.1
  mem : ∀ e, e ∈ L ↔ Under pfx e.1 ∧ vals e.1 = some e.2

/-- The entries of one child. -/
def childEntries (d : ℕ) (L : List (Hash × Bytes)) (i : Nib) : List (Hash × Bytes) :=
  L.filter fun e => nibble e.1 d = i

/-- The entries after the resume path. -/
def remaining (startAfter : Option Hash) (L : List (Hash × Bytes)) : List (Hash × Bytes) :=
  L.filter fun e => ∀ a ∈ startAfter, a < e.1

variable {C : Crypto} {vals : Hash → Option Bytes} {pfx : List Nib} {L : List (Hash × Bytes)}

theorem entries_of_map (M : OrdMap Hash Bytes) : Entries M.get [] M.entries where
  sorted := M.sorted
  mem e := by rw [show e = (e.1, e.2) from rfl, OrdMap.mem_entries]; simp

theorem Entries.child (h : Entries vals pfx L) (i : Nib) : Entries vals (pfx ++ [i]) (childEntries pfx.length L i) where
  sorted := h.sorted.filter _
  mem e := by
    unfold childEntries
    rw [List.mem_filter, h.mem, under_snoc, decide_eq_true_iff]
    tauto

/-- In path order the children follow one another. -/
theorem Entries.flatMap_child (h : Entries vals pfx L) (hd : pfx.length < 64) :
    (List.finRange 16).flatMap (childEntries pfx.length L) = L := by
  refine OrdMap.eq_of_mem_iff ?_ h.sorted fun e => ?_
  · rw [List.pairwise_flatMap]
    refine ⟨fun i _ => (h.child i).sorted, (List.pairwise_lt_finRange 16).imp fun {i j} hij a ha b hb => ?_⟩
    obtain ⟨hau, -⟩ := ((h.child i).mem a).1 ha
    obtain ⟨hbu, -⟩ := ((h.child j).mem b).1 hb
    obtain ⟨hap, hai⟩ := under_snoc.1 hau
    obtain ⟨hbp, hbj⟩ := under_snoc.1 hbu
    -- were they the other way round, so would be their nibbles
    by_contra hlt
    rcases eq_or_lt_of_le (not_lt.1 hlt) with he | hlt'
    · rw [← hai, ← hbj, he] at hij
      exact lt_irrefl _ hij
    · have hle := nibble_le_of_lt hlt' hd fun k hk => hbp.nibble_eq hap hk
      rw [hai, hbj] at hle
      exact absurd hij (not_lt.2 hle)
  · rw [List.mem_flatMap]
    constructor
    · rintro ⟨i, -, he⟩
      exact List.mem_of_mem_filter he
    · intro he
      refine ⟨nibble e.1 pfx.length, List.mem_finRange _, List.mem_filter.2 ⟨he, ?_⟩⟩
      simp

/-- The children below the resume nibble have nothing left. -/
theorem Entries.remaining_below (h : Entries vals pfx L) (hd : pfx.length < 64) {a : Hash} (ha : Under pfx a) {i : Nib}
    (hi : i < nibble a pfx.length) : remaining (some a) (childEntries pfx.length L i) = [] := by
  refine List.filter_eq_nil_iff.2 fun e he hlt => ?_
  obtain ⟨hu, -⟩ := ((h.child i).mem e).1 he
  obtain ⟨hp, hei⟩ := under_snoc.1 hu
  have hlt' : a < e.1 := by simpa using hlt
  have hle := nibble_le_of_lt hlt' hd fun k hk => ha.nibble_eq hp hk
  rw [hei] at hle
  exact absurd hi (not_lt.2 hle)

/-- The children above the resume nibble have everything left. -/
theorem Entries.remaining_above (h : Entries vals pfx L) (hd : pfx.length < 64) {a : Hash} (ha : Under pfx a) {i : Nib}
    (hi : nibble a pfx.length < i) : remaining (some a) (childEntries pfx.length L i) = childEntries pfx.length L i := by
  refine List.filter_eq_self.2 fun e he => ?_
  obtain ⟨hu, -⟩ := ((h.child i).mem e).1 he
  obtain ⟨hp, hei⟩ := under_snoc.1 hu
  simp only [Option.mem_some_iff, forall_eq', decide_eq_true_eq]
  by_contra hlt
  rcases eq_or_lt_of_le (not_lt.1 hlt) with he | hlt'
  · rw [← hei, he] at hi
    exact lt_irrefl _ hi
  · have hle := nibble_le_of_lt hlt' hd fun k hk => hp.nibble_eq ha hk
    rw [hei] at hle
    exact absurd hi (not_lt.2 hle)

theorem remaining_none : remaining none L = L := List.filter_eq_self.2 fun e _ => by simp

theorem remaining_flatMap (startAfter : Option Hash) (is : List Nib) (f : Nib → List (Hash × Bytes)) :
    remaining startAfter (is.flatMap f) = is.flatMap fun i => remaining startAfter (f i) := List.filter_flatMap

/-! ## Pages -/

def leafOf (e : Hash × Bytes) : Leaf := ⟨e.1, e.2⟩

/-- The page that `out` grows to over the entries `T`, and whether they all fit. -/
def page (max : ℕ) (out : List Leaf) (T : List (Hash × Bytes)) : Bool × List Leaf :=
  (decide (out.length + T.length ≤ max), out ++ (T.take (max - out.length)).map leafOf)

variable {max : ℕ} {out : List Leaf}

theorem page_nil (h : out.length ≤ max) : page max out [] = (true, out) := by
  unfold page
  rw [List.take_nil, List.map_nil, List.append_nil, List.length_nil, Nat.add_zero, decide_eq_true h]

theorem page_full {T : List (Hash × Bytes)} (h : max ≤ out.length) (hT : T ≠ []) :
    page max out T = (false, out) := by
  have hpos := List.length_pos_iff.2 hT
  unfold page
  rw [Nat.sub_eq_zero_of_le h, List.take_zero, List.map_nil, List.append_nil, decide_eq_false (by omega)]

/-- A page over `T`, then over `T'` when `T` fits. -/
theorem page_append {T T' : List (Hash × Bytes)} : page max out (T ++ T') =
    if (page max out T).1 then page max (page max out T).2 T' else (false, (page max out T).2) := by
  unfold page
  by_cases h : out.length + T.length ≤ max
  · have hfit : T.take (max - out.length) = T := List.take_of_length_le (by omega)
    rw [decide_eq_true h, if_pos rfl]
    simp only [hfit, List.length_append, List.length_map, List.take_append, List.map_append, List.append_assoc]
    rw [Nat.add_assoc, show max - out.length - T.length = max - (out.length + T.length) by omega]
  · rw [decide_eq_false h, if_neg Bool.false_ne_true, List.length_append, decide_eq_false (by omega),
      List.take_append_of_le_length (by omega)]

/-! ## The walk -/

variable {s : Store MemBackend} {W : Set (Hash × Bytes)} {f : Hash → Option (Hash × UInt64)}

/-- **The loop over the children** returns the page over what remains under them. A child with nothing remaining
is entered only while the page has room. -/
theorem yields_collectChildren {ch : Children} {resumeNib : Option Nib}
    {sub : Nib → Child → List Leaf → LedgerM MemBackend (Bool × List Leaf)} {T : Nib → List (Hash × Bytes)}
    (hskip : ∀ i, (∃ r ∈ resumeNib, i < r) ∨ ch i = none → T i = [])
    (hsub : ∀ i c out, ¬ (∃ r ∈ resumeNib, i < r) → ch i = some c → out.length < max ∨ T i ≠ [] →
      Yields (Around s) (sub i c out) (.ok (page max out (T i))))
    (hfull : ∀ i c, ¬ (∃ r ∈ resumeNib, i < r) → ch i = some c → resumeNib ≠ some i → T i ≠ []) :
    ∀ {is : List Nib} {out : List Leaf}, is.Pairwise (· < ·) → out.length ≤ max →
      (∀ r ∈ resumeNib, r ∈ is → out.length < max) →
      Yields (Around s) (collectChildren ch resumeNib sub is out) (.ok (page max out (is.flatMap T))) := by
  intro is
  induction is with
  | nil =>
    intro out _ hout _
    rw [List.flatMap_nil, page_nil hout]
    exact Yields.pure _
  | cons i is ih =>
    intro out hsorted hout hroom
    obtain ⟨hfirst, hrest⟩ := List.pairwise_cons.1 hsorted
    unfold collectChildren
    by_cases hlow : ∃ r ∈ resumeNib, i < r
    · rw [if_pos hlow, List.flatMap_cons, hskip i (.inl hlow), List.nil_append]
      exact ih hrest hout fun r hr hmem => hroom r hr (List.mem_cons_of_mem _ hmem)
    · rw [if_neg hlow]
      -- past the resume nibble no later child is it
      have hnext : ∀ r ∈ resumeNib, r ∉ is := fun r hr hmem => hlow ⟨r, hr, hfirst r hmem⟩
      cases hc : ch i with
      | none =>
        rw [List.flatMap_cons, hskip i (.inr hc), List.nil_append]
        exact ih hrest hout fun r hr hmem => absurd hmem (hnext r hr)
      | some c =>
        have hready : out.length < max ∨ T i ≠ [] := by
          by_cases hr : resumeNib = some i
          · exact .inl (hroom i hr List.mem_cons_self)
          · exact .inr (hfull i c hlow hc hr)
        rw [List.flatMap_cons, page_append]
        refine (hsub i c out hlow hc hready).bind ?_
        by_cases hfit : (page max out (T i)).1 = true
        · rw [if_pos hfit]
          have hlen : (page max out (T i)).2.length ≤ max := by
            have := of_decide_eq_true hfit
            unfold page
            simp only [List.length_append, List.length_map, List.length_take]
            omega
          have := ih hrest hlen fun r hr hmem => absurd hmem (hnext r hr)
          show Yields _ (if (page max out (T i)).1 = true then _ else _) _
          rw [if_pos hfit]
          exact this
        · rw [if_neg hfit]
          show Yields _ (if (page max out (T i)).1 = true then _ else _) _
          rw [if_neg hfit]
          exact Yields.pure _

/-- **The walk over a stored canonical tree** returns the page over what remains after the resume path. -/
theorem yields_collectLeaves (hW : VhInj C s.ck W) (hc : Content C s.ck W f vals) {t : Tree} :
    ∀ {pfx : List Nib} {fuel : ℕ} {c : Child} {L : List (Hash × Bytes)} {startAfter : Option Hash} {out : List Leaf},
    t.Holds f pfx → (∀ x ∈ t.recs C pfx, Stored (Sealed C s W) s x) → Entries vals pfx L →
    (∀ a ∈ startAfter, Under pfx a) → 64 ≤ pfx.length + fuel → t.ref C = some c →
    out.length < max ∨ remaining startAfter L ≠ [] →
    Yields (Around s) (collectLeaves C max fuel c pfx startAfter out) (.ok (page max out (remaining startAfter L))) := by
  induction t with
  | nil => intro pfx fuel c L startAfter out _ _ _ _ _ hr; cases hr
  | leaf v l =>
    intro pfx fuel c L startAfter out hH hst hL _ _ hr hroom
    cases hr
    obtain ⟨hl, hfl, hno⟩ := hH
    obtain ⟨pt, hpt, hread⟩ := yields_readValue_entry hW hc hfl (hst (.value l.path l.vh l.valueVersion) (.inr rfl))
    -- the leaf is the only entry here
    have hone : L = [(l.path, pt)] := by
      refine OrdMap.eq_of_mem_iff hL.sorted (List.pairwise_singleton _ _) fun e => ?_
      rw [hL.mem, List.mem_singleton]
      constructor
      · rintro ⟨hu, hv⟩
        have he : e.1 = l.path := by
          by_contra hne
          have hvh := hc.vh e.1
          rw [hno e.1 hu hne, hv] at hvh
          cases hvh
        refine Prod.ext he ?_
        rw [he, hpt] at hv
        exact (Option.some_inj.1 hv).symm
      · rintro rfl
        exact ⟨hl, hpt⟩
    unfold collectLeaves
    by_cases hfull : out.length ≥ max
    · rw [if_pos hfull, page_full hfull (hroom.resolve_left (not_lt.2 hfull))]
      exact Yields.pure _
    · rw [if_neg hfull]
      refine (yields_loadNode (n := .leaf l) (hst (.node ⟨v, pfx⟩ (.leaf l)) (.inl rfl)) rfl).bind ?_
      have hiff : (∃ a ∈ startAfter, pathGreater l.path a = false) ↔ ¬ ∀ a ∈ startAfter, a < l.path := by
        simp only [not_forall, ← pathGreater_iff, Bool.not_eq_true, exists_prop]
      rw [hone]
      by_cases hafter : ∀ a ∈ startAfter, a < l.path
      · have hrem : remaining startAfter [(l.path, pt)] = [(l.path, pt)] :=
          List.filter_eq_self.2 fun e he => by rw [List.mem_singleton.1 he]; exact decide_eq_true hafter
        have hfit : page max out [(l.path, pt)] = (true, out ++ [⟨l.path, pt⟩]) := by
          unfold page
          rw [decide_eq_true (by simp; omega), List.take_of_length_le (by simp; omega)]
          rfl
        rw [hrem, hfit]
        show Yields _ (if ∃ a ∈ startAfter, pathGreater l.path a = false then _ else _) _
        rw [if_neg fun h => hiff.1 h hafter]
        exact hread.bind (Yields.pure _)
      · have hrem : remaining startAfter [(l.path, pt)] = [] :=
          List.filter_eq_nil_iff.2 fun e he => by rw [List.mem_singleton.1 he]; simpa using hafter
        rw [hrem, page_nil (by omega)]
        show Yields _ (if ∃ a ∈ startAfter, pathGreater l.path a = false then _ else _) _
        rw [if_pos (hiff.2 hafter)]
        exact Yields.pure _
  | node v ch ih =>
    intro pfx fuel c L startAfter out hH hst hL hsa hlen hr hroom
    cases hr
    have hd := hH.depth_lt
    obtain ⟨fuel, rfl⟩ : ∃ k, fuel = k + 1 := ⟨fuel - 1, by omega⟩
    unfold collectLeaves
    by_cases hfull : out.length ≥ max
    · rw [if_pos hfull, page_full hfull (hroom.resolve_left (not_lt.2 hfull))]
      exact Yields.pure _
    · rw [if_neg hfull]
      refine (yields_loadNode (n := .internal (Tree.refs C ch)) (hst _ (.inl rfl)) rfl).bind ?_
      -- no internal node of a canonical tree is below the last nibble
      have hin : ¬ (startAfter.isSome ∧ nibbles ≤ pfx.length) := fun h => absurd h.2 (not_le.2 hd)
      show Yields _ (if startAfter.isSome ∧ nibbles ≤ pfx.length then _ else _) _
      rw [if_neg hin]
      rw [← hL.flatMap_child hd, remaining_flatMap]
      have hbound : ∀ i, (∃ r ∈ startAfter.map fun a => nibble a pfx.length, i < r) →
          remaining startAfter (childEntries pfx.length L i) = [] := by
        rintro i ⟨r, hr, hi⟩
        obtain ⟨a, ha, rfl⟩ := Option.map_eq_some_iff.1 hr
        rw [show startAfter = some a from ha]
        exact hL.remaining_below hd (hsa a ha) hi
      have hempty : ∀ i, ch i = .nil → childEntries pfx.length L i = [] := by
        intro i hnil
        refine List.eq_nil_iff_forall_not_mem.2 fun e he => ?_
        obtain ⟨hu, hv⟩ := ((hL.child i).mem e).1 he
        have hH' := hH.2 i
        rw [hnil] at hH'
        have hvh := hc.vh e.1
        rw [hH' e.1 hu, hv] at hvh
        cases hvh
      -- what the bound of the child leaves is what the bound of the node leaves of it
      have hsame : ∀ i, ¬ (∃ r ∈ startAfter.map fun a => nibble a pfx.length, i < r) →
          remaining (if startAfter.map (fun a => nibble a pfx.length) = some i then startAfter else none)
            (childEntries pfx.length L i) = remaining startAfter (childEntries pfx.length L i) := by
        intro i hlow
        cases hcase : startAfter with
        | none => simp [remaining_none]
        | some a =>
          rw [hcase] at hlow hsa
          by_cases hri : nibble a pfx.length = i
          · rw [Option.map_some, if_pos (by rw [hri])]
          · have hlt : nibble a pfx.length < i := by
              refine lt_of_le_of_ne (not_lt.1 fun h => hlow ⟨_, rfl, h⟩) hri
            rw [Option.map_some, if_neg fun h => hri (Option.some_inj.1 h), remaining_none,
              hL.remaining_above hd (hsa a rfl) hlt]
      refine yields_collectChildren (T := fun i => remaining startAfter (childEntries pfx.length L i)) ?_ ?_ ?_
        (List.pairwise_lt_finRange 16) (by omega) (fun _ _ _ => by omega)
      · rintro i (hlow | hnone)
        · exact hbound i hlow
        · rw [hempty i (Tree.ref_eq_none.1 hnone)]
          rfl
      · intro i c out hlow hchild hready
        rw [← hsame i hlow] at hready ⊢
        refine ih i (hH.2 i) (fun x hx => hst x (.inr ⟨i, hx⟩)) (hL.child i) ?_ (by simp; omega) hchild hready
        intro a ha
        split at ha
        · rename_i hri
          rw [show startAfter = some a from ha, Option.map_some] at hri
          exact under_snoc.2 ⟨hsa a ha, Option.some_inj.1 hri⟩
        · cases ha
      · intro i c hlow hchild hri
        have hne : ch i ≠ .nil := by
          intro hnil
          rw [show Tree.refs C ch i = (ch i).ref C from rfl, hnil] at hchild
          cases hchild
        obtain ⟨p, hp, hsome⟩ := (hH.2 i).exists_of_ne_nil hne
        obtain ⟨pt, hpt⟩ : ∃ pt, vals p = some pt := by
          have hvh := hc.vh p
          obtain ⟨x, hx⟩ := Option.isSome_iff_exists.1 hsome
          rw [hx, Option.map_some] at hvh
          obtain ⟨pt, hpt, -⟩ := Option.map_eq_some_iff.1 hvh.symm
          exact ⟨pt, hpt⟩
        have hmem := ((hL.child i).mem (p, pt)).2 ⟨hp, hpt⟩
        rw [← hsame i hlow, if_neg hri, remaining_none]
        exact List.ne_nil_of_mem hmem

end ImmutableLedger
