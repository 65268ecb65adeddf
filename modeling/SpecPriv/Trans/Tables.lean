/-
  The tables that `init_queues` builds.

  `Built n a h`: in the heap `h` the tables are those for `n` workers and `a`
  aux workers.  `Built.ptr_ne_zero_iff` tells which of their places lead to a
  queue, and `Entry.ptr_inj` that no two lead to the same one.
-/
import SpecPriv.Trans.Program

namespace SpecPriv.Trans

open Loop Regions Heap

variable {h h' : Heap} {g g' : Global} {n a stop : ℕ} {start : ℕ → ℕ} {st : State}

/-- A global variable leads to a row of pointers, null from `stop` on. -/
structure HasRow (h : Heap) (g : Global) (stop : ℕ) : Prop where
  gt : 1 < h.word globals g.index
  row : ∀ j, h.word (h.word globals g.index) j ≠ 0 ↔ j < stop

/-- A global variable leads to `n` rows of pointers. -/
structure HasGrid (h : Heap) (g : Global) (n : ℕ) (start : ℕ → ℕ) (stop : ℕ) : Prop where
  gt : 1 < h.word globals g.index
  rows : Rows h (h.word globals g.index) n start stop

theorem Global.index_inj (h : g.index = g'.index) : g = g' := by
  cases g <;> cases g' <;> first | rfl | cases h

/-- What is done for one global variable does not change the others. -/
theorem global_same (hne : g ≠ g')
    (hframe : Frame (fun b j => b = globals ∧ j = g'.index) h h') :
    h'.word globals g.index = h.word globals g.index :=
  hframe.same globals h.next_gt _ fun hc => hne (Global.index_inj hc.2)

theorem HasRow.frame (hrow : HasRow h g stop) (hne : g ≠ g')
    (hframe : Frame (fun b j => b = globals ∧ j = g'.index) h h') : HasRow h' g stop := by
  have hsame := global_same hne hframe
  refine ⟨hsame ▸ hrow.gt, ?_⟩
  intro j
  have hp := hrow.gt
  rw [hsame, hframe.same _ (h.lt_next _ _) j fun hc => hp.ne' hc.1, hrow.row j]

theorem HasGrid.frame (hgrid : HasGrid h g n start stop) (hne : g ≠ g')
    (hframe : Frame (fun b j => b = globals ∧ j = g'.index) h h') :
    HasGrid h' g n start stop := by
  have hsame := global_same hne hframe
  refine ⟨hsame ▸ hgrid.gt, ?_⟩
  rw [hsame]
  exact hgrid.rows.frame hframe (h.lt_next _ _) fun b j hc => hc.1.trans_lt hgrid.gt

theorem newRow_hasRow (h : Heap) (g : Global) (stop : ℕ) :
    Frame (fun b j => b = globals ∧ j = g.index) h
        (h.newRow (fun _ => globals) g.index 0 stop) ∧
      HasRow (h.newRow (fun _ => globals) g.index 0 stop) g stop := by
  obtain ⟨hframe, hself, hrow⟩ := newRow_spec (a := globals) (i := g.index) 0 stop
    (⟨by decide, h.next_gt, fun _ _ => rfl⟩ : Stays _ h (fun _ => globals) globals)
  refine ⟨hframe, hself ▸ h.next_gt, ?_⟩
  intro j
  rw [hself, hrow j]
  omega

theorem newGrid_hasGrid (h : Heap) (g : Global) (n : ℕ) (start : ℕ → ℕ) (stop : ℕ) :
    Frame (fun b j => b = globals ∧ j = g.index) h (h.newGrid globals g.index n start stop) ∧
      HasGrid (h.newGrid globals g.index n start stop) g n start stop := by
  obtain ⟨hframe, hself, hrows⟩ := newGrid_spec (a := globals) (i := g.index) n start stop
    (by decide) h.next_gt
  exact ⟨hframe, hself ▸ h.next_gt, hself ▸ hrows⟩

/-! ## `init_queues` -/

/-- The tables for `n` workers and `a` aux workers. -/
structure Built (n a : ℕ) (h : Heap) : Prop where
  ucvf : HasGrid h .ucvfQueues n (· + 1) n
  queues : HasGrid h .queues n (fun _ => 0) a
  commit : HasRow h .commitQueues a
  reverse : HasRow h .reverseCommitQueues n

@[simp] theorem clearSlot_heap (p i : ℕ) : (clearSlot p i st).heap = st.heap := rfl

@[simp] theorem swQueueReset_heap (p : ℕ) : (swQueueReset p st).heap = st.heap := by
  rw [swQueueReset, forLoop_same State.heap fun _ _ => clearSlot_heap _ _]
  rfl

@[simp] theorem swQueueCreate_heap (p i : ℕ) :
    (swQueueCreate p i st).heap = st.heap.mapAt p i :=
  swQueueReset_heap _

/-- The heap that `init_queues` leaves. -/
theorem initQueues_heap (n a : ℕ) (st : State) : (initQueues n a st).heap =
    ((((st.heap.newGrid globals Global.ucvfQueues.index n (· + 1) n).newGrid
      globals Global.queues.index n (fun _ => 0) a).newRow
      (fun _ => globals) Global.commitQueues.index 0 a).newRow
      (fun _ => globals) Global.reverseCommitQueues.index 0 n) := by
  have hfill (loc : Heap → ℕ) (start stop : ℕ) (st : State) :
      (forLoop start stop 1 (fun j st => swQueueCreate (loc st.heap) j st) st).heap =
        st.heap.fill loc start stop :=
    forLoop_map State.heap (fun j st => swQueueCreate_heap (loc st.heap) j) start stop 1 st
  have hgrid (g : Global) (start : ℕ → ℕ) (stop length length' : ℕ) (st : State) :
      (forLoop 0 n 1 (fun i st =>
        forLoop (start i) stop 1 (fun j st => swQueueCreate (st.heap.word (st.global g) i) j st)
          (st.mmap (st.global g) i length)) (st.mmap globals g.index length')).heap =
        st.heap.newGrid globals g.index n start stop := by
    refine forLoop_map State.heap ?_ 0 n 1 _
    intro i st
    exact hfill (fun h => h.word (h.word globals g.index) i) _ _ _
  have hrow (g : Global) (stop length : ℕ) (st : State) :
      (forLoop 0 stop 1 (fun i st => swQueueCreate (st.global g) i st)
        (st.mmap globals g.index length)).heap =
        st.heap.newRow (fun _ => globals) g.index 0 stop :=
    hfill (fun h => h.word globals g.index) _ _ _
  unfold initQueues
  dsimp only
  rw [hrow .reverseCommitQueues, hrow .commitQueues, hgrid .queues (fun _ => 0),
    hgrid .ucvfQueues (· + 1)]

/-- The tables are built, whatever the heap was. -/
theorem initQueues_built (n a : ℕ) (st : State) : Built n a (initQueues n a st).heap := by
  rw [initQueues_heap]
  obtain ⟨-, hucvf⟩ := newGrid_hasGrid st.heap .ucvfQueues n (· + 1) n
  obtain ⟨hf₂, hqueues⟩ := newGrid_hasGrid _ .queues n (fun _ => 0) a
  obtain ⟨hf₃, hcommit⟩ := newRow_hasRow _ .commitQueues a
  obtain ⟨hf₄, hreverse⟩ := newRow_hasRow _ .reverseCommitQueues n
  refine ⟨?_, ?_, hcommit.frame (by decide) hf₄, hreverse⟩
  · exact ((hucvf.frame (by decide) hf₂).frame (by decide) hf₃).frame (by decide) hf₄
  · exact (hqueues.frame (by decide) hf₃).frame (by decide) hf₄

/-! ## The places of the tables -/

/-- The places where `init_queues(n, a)` creates a queue. -/
def Entry.Exists (n a : ℕ) : Entry → Prop
  | ucvf x y => x < y ∧ y < n
  | queue x y => x < n ∧ y < a
  | commit i => i < a
  | reverse i => i < n

/-- The queues that exist. -/
theorem Built.ptr_ne_zero_iff (hb : Built n a h) (e : Entry) : e.ptr h ≠ 0 ↔ e.Exists n a := by
  cases e with
  | ucvf x y =>
    rw [Entry.ptr, hb.ucvf.rows.ne_zero_iff]
    exact ⟨fun hc => hc.2, fun hc => ⟨Nat.lt_trans hc.1 hc.2, hc⟩⟩
  | queue x y =>
    rw [Entry.ptr, hb.queues.rows.ne_zero_iff]
    exact ⟨fun hc => ⟨hc.1, hc.2.2⟩, fun hc => ⟨hc.1, Nat.zero_le y, hc.2⟩⟩
  | commit i => exact hb.commit.row i
  | reverse i => exact hb.reverse.row i

/-- The indices that lead to a place, from the last one on. -/
def Entry.path : Entry → List ℕ
  | ucvf x y => [y, x, Global.ucvfQueues.index]
  | queue x y => [y, x, Global.queues.index]
  | commit i => [i, Global.commitQueues.index]
  | reverse i => [i, Global.reverseCommitQueues.index]

theorem Entry.ptr_eq_follow (e : Entry) (h : Heap) : e.ptr h = h.follow e.path := by
  cases e <;> rfl

theorem Entry.path_inj {e e' : Entry} (h : e.path = e'.path) : e = e' := by
  cases e <;> cases e' <;> simp_all [Entry.path, Global.index]

/-- No two places lead to the same queue. -/
theorem Entry.ptr_inj {e e' : Entry} (h0 : e.ptr h ≠ 0) (heq : e.ptr h = e'.ptr h) : e = e' := by
  rw [ptr_eq_follow] at h0 heq
  rw [ptr_eq_follow] at heq
  exact path_inj (h.follow_inj h0 heq)

end SpecPriv.Trans
