/-
  Invariants of the calls.

  The calls change the state in a few ways only: a packet is sent, a packet is
  consumed, a packet that was read is cleared, and a search advances in a pool.
  What these keep (`Stable`), every call keeps, wherever it ends, and so does
  every run (`run_keeps`).
-/
import SpecPriv.Trans.Begin

namespace SpecPriv.Trans

open Loop Stopping

variable {c : Config} {env : Env} {S : Entry → Prop} {P : State → Prop} {fuel wid : ℕ}
  {st : State} {e : Entry}

/-- What is kept by the steps of the calls that use the places of `S`, also by a
    step that stops.  No packet of type `DONE` is ever sent. -/
structure Stable (env : Env) (S : Entry → Prop) (P : State → Prop) : Prop where
  send : ∀ wid type e st, type ≠ typeDone → S e → P st → P (last (sendPacket env wid type e st))
  consume : ∀ e st, S e → P st → P (afterConsume e st)
  clearPtr : ∀ p st, P st → P (clearPtr p st)
  pool : ∀ st wid pool, pool.ptr = (st.pool wid).ptr → P st →
    P { st with pool := Function.update st.pool wid pool }
  commitPool : ∀ st pool, pool.ptr = st.commitPool.ptr → P st → P { st with commitPool := pool }

namespace Stable

theorem getAvailablePacket (h : Stable env S P) : Keeps P (getAvailablePacket fuel wid) := by
  intro st hst
  unfold Trans.getAvailablePacket Pool.getAvailable
  cases Pool.search (st.pool wid).ptr fuel (st.pool wid).next with
  | none => exact hst
  | some next => exact h.pool st wid _ rfl hst

theorem getAvailableCommitProcessPacket (h : Stable env S P) :
    Keeps P (getAvailableCommitProcessPacket fuel) := by
  intro st hst
  unfold Trans.getAvailableCommitProcessPacket Pool.getAvailable
  cases Pool.search st.commitPool.ptr fuel st.commitPool.next with
  | none => exact hst
  | some next => exact h.commitPool st _ rfl hst

theorem forwardPacket (h : Stable env S P) {myStage : ℤ}
    (hucvf : ∀ i, asUnsigned (myStage + 1) ≤ i → i < c.numStages → S (.ucvf wid i))
    (hqueue : S (.queue wid wid)) (shadowSize : ℤ) :
    Keeps P (forwardPacket c env fuel wid shadowSize myStage) := by
  have hsend {e : Entry} (he : S e) : Keeps P (sendPacket env wid typeSuper e) :=
    fun st => h.send wid typeSuper e st (by decide) he
  refine (Keeps.forLoop ?_).bind (hsend hqueue)
  intro i hi hlt
  unfold forwardToStage
  by_cases hw : wid = c.firstWidOfStage myStage
  · simp only [if_pos hw]
    exact h.getAvailableCommitProcessPacket.bind (hsend (hucvf i hi hlt))
  · simp only [if_neg hw]
    exact h.getAvailablePacket.bind (hsend (hucvf i hi hlt))

theorem forwardPair (h : Stable env S P) {myStage : ℤ}
    (hucvf : ∀ i, asUnsigned (myStage + 1) ≤ i → i < c.numStages → S (.ucvf wid i))
    (hqueue : S (.queue wid wid)) (shadowSize : ℤ) :
    Keeps P (forwardPair c env fuel wid shadowSize myStage) := by
  have hpacket (size : ℤ) : Keeps P (Trans.forwardPacket c env fuel wid size myStage) :=
    h.forwardPacket hucvf hqueue size
  refine (hpacket _).bind ((hpacket _).bind ?_)
  exact Keeps.forLoop fun _ _ _ => (hpacket 8).bind (hpacket 8)

theorem endIter (h : Stable env S P) {myStage : ℤ}
    (hucvf : ∀ i, asUnsigned (myStage + 1) ≤ i → i < c.numStages → S (.ucvf wid i))
    (hqueue : S (.queue wid wid)) (iter : ℕ) :
    Keeps P (endIter c env fuel wid iter myStage) := by
  have hpages (size : State → ℕ → ℤ) (n : ℕ) : Keeps P (Stopping.forLoop 0 n 1
      fun i st => Trans.forwardPair c env fuel wid (size st i) myStage st) :=
    Keeps.forLoop fun i _ _ st => h.forwardPair hucvf hqueue (size st i) st
  unfold Trans.endIter
  by_cases hw : wid = asUnsigned myStage
  · simp only [if_pos hw]
    exact (hpages State.shadowGlobals _).bind
      ((hpages State.shadowHeaps _).bind (hpages State.shadowStacks _))
  · simp only [if_neg hw]
    exact Keeps.ok

theorem consumePacket (h : Stable env S P) (hS : S e) : KeepsVal P (consumePacket e) := by
  have hconsume : KeepsVal P (swQueueConsume e) := fun st => h.consume e st hS
  refine hconsume.bindVal ?_
  intro r hr
  dsimp only
  split_ifs
  · exact hr
  · exact hr

theorem consumeShadow (h : Stable env S P) (hS : S e) (p : Packet) :
    Keeps P (consumeShadow e p) := by
  have hconsume : KeepsVal P (swQueueConsume e) := fun st => h.consume e st hS
  intro st hst
  unfold Trans.consumeShadow
  split_ifs
  · exact hconsume.drop st hst
  · exact hconsume.drop st hst
  · exact hst

theorem receivePacket (h : Stable env S P) (hS : S e) : KeepsVal P (receivePacket e) := by
  refine (h.consumePacket hS).bindVal ?_
  intro r hr
  have hshadow := h.consumeShadow hS (r.2.packet r.1) r.2 hr
  dsimp only
  cases hs : Trans.consumeShadow e (r.2.packet r.1) r.2 with
  | error s => rwa [hs] at hshadow
  | ok s =>
    rw [hs] at hshadow
    exact h.clearPtr r.1 s hshadow

/-- The receive loop. -/
theorem receiveAll (h : Stable env S P) (hS : S e) : ∀ fuel, Keeps P (receiveAll e fuel)
  | 0 => fun _ hst => hst
  | fuel + 1 => by
    refine (h.receivePacket hS).bind ?_
    intro r hr
    dsimp only
    split_ifs
    · exact hr
    · exact receiveAll h hS fuel r.2 hr

theorem beginIter (h : Stable env S P) {iter myStage : ℕ} (hucvf : 0 < myStage → S (.ucvf 0 wid))
    (hqueue : ∀ i < c.numAuxWorkers, S (.queue wid i)) (isMyIter : ℕ) :
    Keeps P (beginIter c env fuel wid iter myStage isMyIter) := by
  have hreceive : Keeps P
      (Stopping.forLoop 0 myStage 1 fun _ => Trans.receiveAll (.ucvf 0 wid) fuel) :=
    Keeps.forLoop fun i _ hi => h.receiveAll (hucvf (Nat.zero_lt_of_lt hi)) fuel
  refine hreceive.bind ?_
  intro st hst
  split_ifs
  · refine Keeps.forLoop ?_ st hst
    intro i _ hi st' hst'
    exact h.send wid (-1) _ st' (by decide) (hqueue i hi) hst'
  · exact hst

theorem busyWait (h : Stable env S P) (hS : S (.reverse wid)) (myStage : ℤ) :
    ∀ fuel, Keeps P (busyWait wid myStage fuel)
  | 0 => fun _ hst => hst
  | fuel + 1 => by
    intro st hst
    have hconsume : Keeps P fun st => Trans.consumePacket (.reverse wid) st >>= fun r =>
        if (r.2.packet r.1).isWrite = regular ∨ (r.2.packet r.1).isWrite = separation then
          Trans.busyWait wid myStage fuel r.2
        else .error r.2 := by
      refine (h.consumePacket hS).bind ?_
      intro r hr
      split_ifs
      · exact busyWait h hS myStage fuel r.2 hr
      · exact hr
    unfold Trans.busyWait
    rcases swQueueEmpty_cases (.reverse wid) st with heq | ⟨empty, heq⟩
    · rw [heq]
      exact hst
    · rw [heq, bind_ok]
      split_ifs
      · exact hst
      · exact hconsume st hst

end Stable

/-- **A call keeps what its steps keep**, wherever it ends. -/
theorem exec_keeps (h : Stable env (fun _ => True) P) (call : MainCall) :
    Keeps P fun st => call.exec c env fuel st := by
  cases call with
  | beginIter wid iter myStage isMyIter =>
    exact h.beginIter (fun _ => trivial) (fun _ _ => trivial) isMyIter
  | busyWait wid myStage => exact h.busyWait trivial myStage fuel
  | endIter wid iter myStage => exact h.endIter (fun _ _ _ => trivial) trivial iter

/-- And so does a run. -/
theorem run_keeps (h : Stable env (fun _ => True) P) (calls : List MainCall) :
    Keeps P (runMain c env fuel calls) :=
  Keeps.foldlM fun call _ => exec_keeps h call

/-- What the calls keep holds in every state reached. -/
theorem Reached.keeps (h : Stable env (fun _ => True) P) (h₀ : P (beginInvocation c .init))
    (hst : Reached c env st) : P st := by
  obtain ⟨fuel, calls, hrun⟩ := hst
  have hkeeps : Keeps P (runMain c env fuel calls) := run_keeps h calls
  have hP := hkeeps _ h₀
  rwa [hrun] at hP

/-! ## The tables and the pools -/

theorem stable_heap (h : Regions.Heap) : Stable env (fun _ => True) fun st => st.heap = h where
  send _ _ _ _ _ _ hst := by rwa [sendPacket_heap]
  consume _ _ _ hst := by rwa [afterConsume_heap]
  clearPtr _ _ hst := hst
  pool _ _ _ _ hst := hst
  commitPool _ _ _ hst := hst

theorem stable_idle : Stable env (fun _ => True) Idle where
  send _ type e _ _ _ hst := hst.sendPacket type e
  consume e _ _ hst := hst.afterConsume e
  clearPtr _ _ hst := ⟨hst.pool, hst.commitPool, hst.queue⟩
  pool _ _ _ hpool hst := hst.setPool hpool
  commitPool _ _ hpool hst :=
    ⟨hst.pool, fun i => (congrFun hpool i).trans (hst.commitPool i), hst.queue⟩

namespace Reached

theorem begin (c : Config) (env : Env) : Reached c env (beginInvocation c .init) := ⟨0, [], rfl⟩

theorem heap (hst : Reached c env st) : st.heap = (beginInvocation c .init).heap :=
  hst.keeps (stable_heap _) rfl

theorem idle (hst : Reached c env st) : Idle st := hst.keeps stable_idle (beginInvocation_idle c)

/-- The queues that exist. -/
theorem ptr_ne_zero_iff (hst : Reached c env st) (e : Entry) :
    e.ptr st.heap ≠ 0 ↔ e.Exists c.numWorkers c.numAuxWorkers := by
  rw [hst.heap]
  exact (beginInvocation_built c .init).ptr_ne_zero_iff e

end Reached

end SpecPriv.Trans
