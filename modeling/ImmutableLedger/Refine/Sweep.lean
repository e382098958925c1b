import ImmutableLedger.Ledger.Commit

/-!
# Deleting a range of records chunk by chunk

The two loops of `Prune` scan a range of the backend and delete what they find, at most `pruneChunk` entries
a round, until a round comes back short. Over the in-memory backend each of them deletes the whole range.

`Swept b b' start stop del` says that `b'` is `b` without the keys `del e` of the entries `e` in the range.

* `pruneStale_run`, `pruneRoots_run`: the loops end, within the rounds they are given, in a swept backend.
-/

namespace ImmutableLedger

open EStateM

/-- The keys to delete for the entries of `b` in `[start, stop)`. -/
def Doomed (b : MemBackend) (start stop : Bytes) (del : Bytes → List Bytes) (k : Bytes) : Prop :=
  ∃ e r, b.get e = some r ∧ start ≤ e ∧ e < stop ∧ k ∈ del e

open Classical in
/-- `b'` is `b` after the range `[start, stop)` was swept. -/
def Swept (b b' : MemBackend) (start stop : Bytes) (del : Bytes → List Bytes) : Prop :=
  ∀ k, b'.get k = if Doomed b start stop del k then none else b.get k

/-- The deletes of a chunk. -/
def deletes (del : Bytes → List Bytes) (entries : List (Bytes × Bytes)) : List BatchOp :=
  entries.flatMap fun e => (del e.1).map fun k => { key := k, delete := true }

variable {b b' : MemBackend} {start stop : Bytes} {del : Bytes → List Bytes}

theorem Swept.get_some (h : Swept b b' start stop del) {k v : Bytes} (hk : b'.get k = some v) : b.get k = some v := by
  rw [h k] at hk
  split at hk
  · cases hk
  · exact hk

theorem Swept.get_of_not (h : Swept b b' start stop del) {k : Bytes} (hk : ¬ Doomed b start stop del k) :
    b'.get k = b.get k := by
  rw [h k, if_neg hk]

theorem Swept.get_of_doomed (h : Swept b b' start stop del) {k : Bytes} (hk : Doomed b start stop del k) :
    b'.get k = none := by
  rw [h k, if_pos hk]

theorem get_deletes {entries : List (Bytes × Bytes)} (k : Bytes) [Decidable (∃ e ∈ entries, k ∈ del e.1)] :
    (b.writeBatch (deletes del entries)).get k = if ∃ e ∈ entries, k ∈ del e.1 then none else b.get k := by
  have hmem : ∀ op ∈ deletes del entries, op.delete = true ∧ ∃ e ∈ entries, op.key ∈ del e.1 := by
    intro op hop
    obtain ⟨e, he, hop⟩ := List.mem_flatMap.1 hop
    obtain ⟨k, hk, rfl⟩ := List.mem_map.1 hop
    exact ⟨rfl, e, he, hk⟩
  split
  · rename_i h
    obtain ⟨e, he, hk⟩ := h
    have hop : ({ key := k, delete := true } : BatchOp) ∈ deletes del entries :=
      List.mem_flatMap.2 ⟨e, he, List.mem_map.2 ⟨k, hk, rfl⟩⟩
    refine MemBackend.get_writeBatch ⟨_, hop, rfl⟩ ?_ b
    intro op hop _
    rw [(hmem op hop).1]; rfl
  · rename_i h
    refine MemBackend.get_writeBatch_of_notin ?_ b
    rintro op hop rfl
    exact h (hmem op hop).2

theorem get_of_get_deletes {entries : List (Bytes × Bytes)} {k v : Bytes}
    (h : (b.writeBatch (deletes del entries)).get k = some v) : b.get k = some v := by
  classical
  rw [get_deletes] at h
  split at h
  · cases h
  · exact h

/-! ## One round -/

section
variable (hstop : stop ≠ []) {n : ℕ} (hn : n ≠ 0)
include hstop

theorem mem_scan_full {e : Bytes × Bytes} :
    e ∈ b.scan start stop 0 ↔ b.get e.1 = some e.2 ∧ start ≤ e.1 ∧ e.1 < stop := by
  rw [MemBackend.mem_scan]
  simp [hstop]

include hn

theorem mem_of_mem_scan {e : Bytes × Bytes} (he : e ∈ b.scan start stop n) :
    b.get e.1 = some e.2 ∧ start ≤ e.1 ∧ e.1 < stop := by
  have hscan : b.scan start stop n = (b.scan start stop 0).take n := by simp [MemBackend.scan, hn]
  rw [hscan] at he
  exact (mem_scan_full hstop).1 (List.mem_of_mem_take he)

/-- A short chunk is the whole range. -/
theorem mem_scan_of_short (hshort : (b.scan start stop n).length ≠ n) {e : Bytes × Bytes} :
    e ∈ b.scan start stop n ↔ b.get e.1 = some e.2 ∧ start ≤ e.1 ∧ e.1 < stop := by
  have hscan : b.scan start stop n = (b.scan start stop 0).take n := by simp [MemBackend.scan, hn]
  have hall : b.scan start stop n = b.scan start stop 0 := by
    rw [hscan] at hshort ⊢
    refine List.take_of_length_le ?_
    rw [List.length_take] at hshort
    omega
  rw [hall]
  exact mem_scan_full hstop

/-- A short chunk finishes the sweep. -/
theorem swept_of_short (hshort : (b.scan start stop n).length ≠ n) :
    Swept b (b.writeBatch (deletes del (b.scan start stop n))) start stop del := by
  classical
  intro k
  rw [get_deletes]
  refine if_congr ⟨?_, ?_⟩ rfl rfl
  · rintro ⟨e, he, hk⟩
    obtain ⟨h1, h2, h3⟩ := mem_of_mem_scan hstop hn he
    exact ⟨e.1, e.2, h1, h2, h3, hk⟩
  · rintro ⟨e, r, h1, h2, h3, hk⟩
    exact ⟨(e, r), (mem_scan_of_short hstop hn hshort).2 ⟨h1, h2, h3⟩, hk⟩

variable (hdel : ∀ e r, b.get e = some r → start ≤ e → e < stop → e ∈ del e ∧ ∀ k ∈ del e, start ≤ k → k < stop → k = e)
include hdel

/-- A chunk, then a sweep of what is left, is a sweep. -/
theorem Swept.chunk (h : Swept (b.writeBatch (deletes del (b.scan start stop n))) b' start stop del) :
    Swept b b' start stop del := by
  classical
  have hget := fun k => @get_deletes b del (b.scan start stop n) k
  intro k
  by_cases hk : ∃ e ∈ b.scan start stop n, k ∈ del e.1
  · have hnone : b'.get k = none := by
      rw [h k, hget k, if_pos hk, ite_self]
    obtain ⟨e, he, hke⟩ := hk
    obtain ⟨h1, h2, h3⟩ := mem_of_mem_scan hstop hn he
    rw [hnone, if_pos ⟨e.1, e.2, h1, h2, h3, hke⟩]
  · rw [h k, hget k, if_neg hk]
    refine if_congr ⟨?_, ?_⟩ rfl rfl
    · rintro ⟨e, r, h1, h2, h3, hke⟩
      exact ⟨e, r, get_of_get_deletes h1, h2, h3, hke⟩
    · rintro ⟨e, r, h1, h2, h3, hke⟩
      refine ⟨e, r, ?_, h2, h3, hke⟩
      -- an entry of the range goes only with its own chunk
      rw [hget e, if_neg ?_]
      · exact h1
      · rintro ⟨e', he', hmem⟩
        obtain ⟨h1', h2', h3'⟩ := mem_of_mem_scan hstop hn he'
        have heq := (hdel e'.1 e'.2 h1' h2' h3').2 e hmem h2 h3
        exact hk ⟨e', he', heq ▸ hke⟩

/-- A chunk that is not empty makes the backend smaller. -/
theorem size_chunk_lt (hne : b.scan start stop n ≠ []) :
    (b.writeBatch (deletes del (b.scan start stop n))).size < b.size := by
  classical
  obtain ⟨e, he⟩ := List.exists_mem_of_ne_nil _ hne
  obtain ⟨h1, h2, h3⟩ := mem_of_mem_scan hstop hn he
  refine OrdMap.size_lt (fun k v hk => get_of_get_deletes hk) h1 ?_
  rw [get_deletes, if_pos ⟨e, he, (hdel e.1 e.2 h1 h2 h3).1⟩]

end

/-! ## The loops -/

/-- The keys that go with a stale entry: its target and its own. -/
def staleKeys (e : Bytes) : List Bytes := [e.drop 9, e]

theorem staleOps_eq (entries : List (Bytes × Bytes)) : staleOps entries = deletes staleKeys entries := rfl

theorem deletes_self (entries : List (Bytes × Bytes)) :
    entries.map (fun e => ({ key := e.1, delete := true } : BatchOp)) = deletes (fun e => [e]) entries := by
  rw [deletes, List.map_eq_flatMap]
  rfl

theorem pruneChunk_ne_zero : pruneChunk ≠ 0 := by decide

/-- **A loop that deletes a range chunk by chunk** sweeps it, when each round deletes a chunk and goes on after a full one. -/
theorem sweep_run {loop : ℕ → PruneStats → LedgerM MemBackend PruneStats} (count : PruneStats → ℕ → PruneStats)
    {P : MemBackend → Prop} (hstop : stop ≠ []) (hP : ∀ b entries, P b → P (b.writeBatch (deletes del entries)))
    (hdel : ∀ b, P b → ∀ e r, b.get e = some r → start ≤ e → e < stop →
      e ∈ del e ∧ ∀ k ∈ del e, start ≤ k → k < stop → k = e)
    (hround : ∀ rounds stats (s : Store MemBackend), P s.backend → loop (rounds + 1) stats s =
      let entries := MemBackend.scan s.backend start stop pruneChunk
      let s' := { s with backend := MemBackend.writeBatch s.backend (deletes del entries) }
      if entries = [] then .ok stats s
      else if entries.length = pruneChunk then loop rounds (count stats entries.length) s'
      else .ok (count stats entries.length) s') :
    ∀ (rounds : ℕ) (stats : PruneStats) (s : Store MemBackend), OrdMap.size s.backend < rounds → P s.backend →
      ∃ stats' b', loop rounds stats s = .ok stats' { s with backend := b' } ∧ Swept s.backend b' start stop del := by
  intro rounds
  induction rounds with
  | zero => intro stats s hlt; exact absurd hlt (Nat.not_lt_zero _)
  | succ rounds ih =>
    intro stats s hlt hs
    have hdel := hdel s.backend hs
    have hshort := @swept_of_short s.backend start stop del hstop pruneChunk pruneChunk_ne_zero
    have hchunk := fun b' => @Swept.chunk s.backend b' _ stop _ hstop pruneChunk pruneChunk_ne_zero hdel
    have hsize := size_chunk_lt (b := s.backend) hstop pruneChunk_ne_zero hdel
    rw [hround rounds stats s hs]
    generalize MemBackend.scan s.backend start stop pruneChunk = entries at hshort hchunk hsize ⊢
    dsimp only
    by_cases hempty : entries = []
    · have hsw := hshort (by rw [hempty]; decide)
      rw [hempty] at hsw ⊢
      exact ⟨stats, s.backend, rfl, hsw⟩
    · rw [if_neg hempty]
      by_cases hfull : entries.length = pruneChunk
      · rw [if_pos hfull]
        obtain ⟨stats', b', hrun, hsw⟩ := ih (count stats entries.length)
          { s with backend := MemBackend.writeBatch s.backend (deletes del entries) }
          (lt_of_lt_of_le (hsize hempty) (Nat.le_of_lt_succ hlt)) (hP _ _ hs)
        exact ⟨stats', b', hrun, hchunk b' hsw⟩
      · rw [if_neg hfull]
        exact ⟨_, _, rfl, hshort hfull⟩

/-- **The loop over the stale range** deletes every entry of the range with its target. -/
theorem pruneStale_run (hstop : stop ≠ []) : ∀ (rounds : ℕ) (stats : PruneStats) (s : Store MemBackend),
    OrdMap.size s.backend < rounds →
    (∀ e r, OrdMap.get s.backend e = some r → [recStale] ≤ e → e < stop →
      10 ≤ e.length ∧ ¬ ([recStale] ≤ e.drop 9 ∧ e.drop 9 < stop)) →
    ∃ stats' b', pruneStale stop rounds stats s = .ok stats' { s with backend := b' } ∧
      Swept s.backend b' [recStale] stop staleKeys := by
  refine sweep_run (P := fun b => ∀ e r, b.get e = some r → [recStale] ≤ e → e < stop →
      10 ≤ e.length ∧ ¬ ([recStale] ≤ e.drop 9 ∧ e.drop 9 < stop))
    (fun stats n => { stats with staleEntries := stats.staleEntries + n, recordsDeleted := stats.recordsDeleted + n }) hstop
    (fun b entries hb e r he => hb e r (get_of_get_deletes he)) ?_ ?_
  · intro b hb e r h1 h2 h3
    refine ⟨by simp [staleKeys], fun k hk h4 h5 => ?_⟩
    rcases List.mem_pair.1 hk with rfl | rfl
    · exact absurd ⟨h4, h5⟩ (hb e r h1 h2 h3).2
    · rfl
  · intro rounds stats s hkeys
    have hlong : (MemBackend.scan s.backend [recStale] stop pruneChunk).any (fun e => e.1.length < 10) = false := by
      rw [List.any_eq_false]
      intro e he
      obtain ⟨h1, h2, h3⟩ := mem_of_mem_scan hstop pruneChunk_ne_zero he
      have := (hkeys e.1 e.2 h1 h2 h3).1
      simp only [decide_eq_true_eq]; omega
    show (if MemBackend.scan s.backend [recStale] stop pruneChunk = [] then pure stats else _ :
      LedgerM MemBackend PruneStats) s = _
    dsimp only
    rw [hlong, staleOps_eq]
    generalize MemBackend.scan s.backend [recStale] stop pruneChunk = entries
    by_cases hfull : entries.length = pruneChunk
    · simp only [hfull, if_true]
      split <;> rfl
    · simp only [hfull, if_false]
      split <;> rfl

/-- **The loop over the root records** deletes every entry of the range. -/
theorem pruneRoots_run (hstop : stop ≠ []) (rounds : ℕ) (stats : PruneStats) (s : Store MemBackend)
    (hlt : OrdMap.size s.backend < rounds) :
    ∃ stats' b', pruneRoots stop rounds stats s = .ok stats' { s with backend := b' } ∧
      Swept s.backend b' [recRoot] stop fun e => [e] := by
  refine sweep_run (P := fun _ => True) (fun stats n => { stats with rootRecordsDeleted := stats.rootRecordsDeleted + n })
    hstop (fun _ _ _ => trivial) (fun _ _ e _ _ _ _ => ⟨List.mem_singleton_self e, fun k hk _ _ => List.mem_singleton.1 hk⟩)
    ?_ rounds stats s hlt trivial
  intro rounds stats s _
  show (if MemBackend.scan s.backend [recRoot] stop pruneChunk = [] then pure stats else _ :
    LedgerM MemBackend PruneStats) s = _
  dsimp only
  rw [deletes_self]
  generalize MemBackend.scan s.backend [recRoot] stop pruneChunk = entries
  by_cases hfull : entries.length = pruneChunk
  · simp only [hfull, if_true]
    split <;> rfl
  · simp only [hfull, if_false]
    split <;> rfl

end ImmutableLedger
