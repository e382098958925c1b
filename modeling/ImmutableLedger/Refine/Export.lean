import ImmutableLedger.Tree.Collect
import ImmutableLedger.Refine.Invariant

/-!
# Exports of a store

A page of `SnapshotLeaves`, and a whole export page by page, on a store that holds a versioned map: the leaves
are the entries of the map of the version, in path order.
-/

namespace ImmutableLedger

open EStateM

variable {C : Crypto} {W : Set (Hash × Bytes)} {s : Store MemBackend} {m : Model} {g : UInt64 → Snap}

/-- The leaves of a map, in path order. -/
def leavesOf (vals : OrdMap Hash Bytes) : List Leaf := vals.entries.map leafOf

/-- What remains after the last entry of a page is what the page left out. -/
theorem remaining_after {L : List (Hash × Bytes)} (hL : L.Pairwise fun a b => a.1 < b.1) {startAfter : Option Hash} {k : ℕ}
    {e : Hash × Bytes} (he : ((remaining startAfter L).take k).getLast? = some e) :
    remaining (some e.1) L = (remaining startAfter L).drop k := by
  set R := remaining startAfter L with hR
  have hRs : R.Pairwise fun a b => a.1 < b.1 := hL.filter _
  have hsplit : (R.take k ++ R.drop k).Pairwise fun a b => a.1 < b.1 := by rw [List.take_append_drop]; exact hRs
  obtain ⟨hfirst, hrest, hcross⟩ := List.pairwise_append.1 hsplit
  have hmem : e ∈ R.take k := List.mem_of_mem_getLast? he
  obtain ⟨-, hafter⟩ := List.mem_filter.1 (List.mem_of_mem_take hmem)
  refine OrdMap.eq_of_mem_iff (hL.filter _) hrest fun x => ?_
  constructor
  · intro hx
    obtain ⟨hxL, hlt⟩ := List.mem_filter.1 hx
    have hlt' : e.1 < x.1 := by simpa using hlt
    have hxR : x ∈ R.take k ++ R.drop k := by
      rw [List.take_append_drop]
      refine List.mem_filter.2 ⟨hxL, decide_eq_true fun a ha => ?_⟩
      exact lt_trans (of_decide_eq_true hafter a ha) hlt'
    refine (List.mem_append.1 hxR).resolve_left fun hin => ?_
    -- the last entry of the page is its largest
    obtain ⟨l, hl⟩ := List.getLast?_eq_some_iff.1 he
    rw [hl] at hin hfirst
    rcases List.mem_append.1 hin with hin | hin
    · exact absurd hlt' ((List.pairwise_append.1 hfirst).2.2 x hin e (List.mem_singleton_self e)).asymm
    · rw [List.mem_singleton.1 hin] at hlt'
      exact lt_irrefl _ hlt'
  · intro hx
    refine List.mem_filter.2 ⟨List.mem_of_mem_filter (List.mem_of_mem_drop hx), ?_⟩
    simpa using hcross e hmem x hx

section
variable (h : Refines C W s m g) (hW : VhInj C s.ck W) {v : UInt64} {vals : OrdMap Hash Bytes}
  (hv : m.past v = some vals) {max : ℕ} (hmax : 1 ≤ max)
include h hW hv hmax

/-- **A page of a readable version.** -/
theorem Refines.yields_snapshotLeaves (startAfter : Option Hash) :
    Yields (Around s) (Store.snapshotLeaves C v startAfter max)
      (.ok ((page max [] (remaining startAfter vals.entries)).2, (page max [] (remaining startAfter vals.entries)).1)) := by
  obtain ⟨-, hx⟩ := h.snaps v vals hv
  unfold Store.snapshotLeaves
  refine (h.yields_loadRootRecord hv).bind (hx.yields_loadRootChild.bind ?_)
  cases hc : (g v).tree.ref C with
  | none =>
    have hempty : vals.entries = [] := by
      refine List.eq_nil_iff_forall_not_mem.2 fun e he => ?_
      have hH := hx.holds
      rw [Tree.ref_eq_none.1 hc] at hH
      have hvh := hx.content.vh e.1
      rw [hH e.1 (under_nil _), OrdMap.mem_entries.1 he] at hvh
      cases hvh
    rw [hempty, show remaining startAfter [] = [] from rfl, page_nil (Nat.zero_le _)]
    exact Yields.pure _
  | some c =>
    refine yields_get_store fun c' _ => ?_
    have hdeep : 64 ≤ ([] : List Nib).length + (nibbles + Backend.len s.backend) := by
      rw [List.length_nil, Nat.zero_add]
      exact Nat.le_add_right 64 _
    exact (yields_collectLeaves hW hx.content hx.holds hx.stored (entries_of_map vals) (fun a _ => under_nil a)
      hdeep hc (.inl hmax)).bind (Yields.pure _)

/-- **A whole export**, page by page, returns the leaves of the version after the resume path. -/
theorem Refines.yields_exportLeaves : ∀ {pages : ℕ} {startAfter : Option Hash},
    (remaining startAfter vals.entries).length < pages →
    Yields (Around s) (Store.exportLeaves C v max pages startAfter)
      (.ok ((remaining startAfter vals.entries).map leafOf)) := by
  intro pages
  induction pages with
  | zero => intro startAfter hlen; omega
  | succ pages ih =>
    intro startAfter hlen
    set R := remaining startAfter vals.entries with hR
    unfold Store.exportLeaves
    refine (h.yields_snapshotLeaves hW hv hmax startAfter).bind ?_
    rw [← hR]
    by_cases hfit : R.length ≤ max
    · have hpage : page max [] R = (true, R.map leafOf) := by
        unfold page
        rw [List.take_of_length_le (by simpa using hfit), decide_eq_true (by simpa using hfit)]
        rfl
      rw [hpage]
      exact Yields.pure _
    · have hpage : page max [] R = (false, (R.take max).map leafOf) := by
        unfold page
        rw [decide_eq_false (by simpa using hfit)]
        rfl
      -- the page is full, so it has a last entry
      obtain ⟨e, he⟩ : ∃ e, (R.take max).getLast? = some e := by
        refine Option.ne_none_iff_exists'.1 fun hnone => ?_
        have := congrArg List.length (List.getLast?_eq_none_iff.1 hnone)
        rw [List.length_take, List.length_nil] at this
        omega
      have hnext : (((R.take max).map leafOf).getLast?.map Leaf.path).or startAfter = some e.1 := by
        rw [List.getLast?_map, he]
        rfl
      have hdrop := remaining_after vals.sorted he
      have hrest := @ih (some e.1) (by rw [hdrop, ← hR, List.length_drop]; omega)
      rw [hpage]
      show Yields _ (if false = true then _ else _) _
      rw [if_neg Bool.false_ne_true, hnext]
      refine hrest.bind ?_
      rw [hdrop, ← hR, ← List.map_append, List.take_append_drop]
      exact Yields.pure _

end

end ImmutableLedger
