/-
  Several workers and one receiver.

  The packets of every worker come through a queue of their own, and the
  receiver merges all of them into one memory.  It keeps the order of each
  queue, but may turn from one to another at any packet, while the workers go
  on with their iterations.

  `hub_follows`: when no two workers write the same bytes, the receiver's copy
  of a byte follows the worker that writes it, whatever the interleaving.
-/
import SpecPriv.Trans.Channel

namespace SpecPriv

open Framing Relation

variable {am : AddressMap}

/-- The worker records writes to bytes of its own only. -/
def Worker.WritesOwn (owner : ℕ → Wid) (wid : Wid) (w : Worker am) : Prop :=
  ∀ (t : am.Shadow) (j : ℕ), j < pageSize → w.Records t j →
    owner ((am.getOriginalOf t).addr + j) = wid

/-- The channels of all workers, with one memory that they lead to. -/
structure Hub (am : AddressMap) where
  channel : Wid → Channel am
  replica : Receiver

namespace Hub

/-- The channel of a worker, with the memory that it leads to. -/
def view (s : Hub am) (wid : Wid) : Channel am := { s.channel wid with replica := s.replica }

/-- The hub after a step of a channel. -/
def moved (s : Hub am) (wid : Wid) (c : Channel am) : Hub am :=
  ⟨Function.update s.channel wid c, c.replica⟩

/-- One channel takes a step. -/
inductive Step (W : Wire) (rt : Runtime) (owner : ℕ → Wid) : Hub am → Hub am → Prop
  | channel (s : Hub am) (wid : Wid) (hw : wid.toNat < rt.layout.numWorkers) (c : Channel am)
      (h : Channel.Step W rt wid (s.view wid) c) (hown : c.sender.WritesOwn owner wid) :
      Step W rt owner s (s.moved wid c)

/-- Nothing was sent yet, and the receiver has the bytes of each worker. -/
structure Starts (owner : ℕ → Wid) (w : Wid → Worker am) (s : Hub am) : Prop where
  channel : ∀ wid, s.channel wid = .start (w wid) s.replica
  own : ∀ wid, (w wid).WritesOwn owner wid
  agree : ∀ x ∈ am.programBytes, s.replica.mem x = (w (owner x)).mem x

end Hub

/-- The pair changes no byte of another worker. -/
def Quiet (owner : ℕ → Wid) (wid : Wid) (p : Packet × Packet) : Prop :=
  ∀ m x, owner x ≠ wid → applyPair p m x = m x

variable {W : Wire} {rt : Runtime} {wid : Wid} {owner : ℕ → Wid} {w : Worker am}
  {pages : List am.Shadow}

theorem applyPair_pointwise : Replica.Pointwise applyPair := by
  intro p m m' x hx
  have hmerge : ∀ (a n : ℕ) (d s : ℕ → Byte),
      (mergeBytes updateByte ⟨m, fun _ => 0#8⟩ a n d s).mem x =
        (mergeBytes updateByte ⟨m', fun _ => 0#8⟩ a n d s).mem x := by
    intro a n d s
    by_cases hin : a ≤ x ∧ x < a + n
    · obtain ⟨j, rfl⟩ := Nat.exists_eq_add_of_le hin.1
      rw [mergeBytes_mem_apply (by omega), mergeBytes_mem_apply (by omega)]
      dsimp only
      rw [hx]
    · rw [mergeBytes_mem_of_not_mem (by omega), mergeBytes_mem_of_not_mem (by omega)]
      exact hx
  unfold applyPair takePair
  split
  · exact hmerge _ _ _ _
  · exact hmerge _ _ _ _
  · exact hx

/-- The pairs of the pages of a worker change bytes of its own only. -/
theorem pagePairs_quiet (hrt : rt.KeepsWrites am) (hown : w.WritesOwn owner wid)
    (hpages : ∀ s ∈ pages, s ∈ w.shadows ∧ Marked (rt.updateShadow w.mem) s) :
    ∀ p ∈ pagePairs W (rt.updateShadow w.mem) pages, Quiet owner wid p := by
  intro p hp m x hx
  have htowards := applyPair_towards (P := {x | owner x = wid}) hp ?_ m
  · exact htowards.outside hx
  · intro t ht j hj hwritten
    obtain ⟨hshadow, hmarked⟩ := hpages t ht
    refine hown t j hj ⟨hshadow, ?_, ?_⟩
    · rw [← hrt.touched]
      exact hmarked.1
    · rwa [written_clearTouched, hrt.written _ _ _ hj] at hwritten

namespace Hub

variable {s s' s₀ : Hub am} {w : Wid → Worker am} {log : List (Wid × (Packet × Packet))}

/-- What holds of a hub: `log` lists the pairs that were merged, with the worker
    that each is from. -/
structure Orderly (owner : ℕ → Wid) (w : Wid → Worker am) (r : Receiver) (s : Hub am)
    (log : List (Wid × (Packet × Packet))) : Prop where
  channel : ∀ wid, ∃ taken streams, (s.channel wid).Orderly taken streams ∧
    ∀ items ∈ streams, ∀ p ∈ items.filterMap Item.pair?, Quiet owner wid p
  head : ∀ wid, (s.channel wid).published.head? = some (w wid).mem
  own : ∀ wid, (s.channel wid).sender.WritesOwn owner wid
  pairs : ∀ wid, (s.channel wid).intake.pairs =
    (log.filter fun u => u.1 = wid).map Prod.snd
  replica : s.replica.mem = Replica.applyAll (fun u => applyPair u.2) log r.mem

theorem Starts.orderly (h : s₀.Starts owner w) : s₀.Orderly owner w s₀.replica [] where
  channel wid := by
    rw [h.channel]
    exact ⟨[], [], Channel.start_orderly _ _, by simp⟩
  head wid := by
    rw [h.channel]
    rfl
  own wid := by
    rw [h.channel]
    exact h.own wid
  pairs wid := by
    rw [h.channel]
    rfl
  replica := rfl

/-- What a worker adds to the log is its own. -/
theorem filter_ofWorker (ps : List (Packet × Packet)) (wid i : Wid) :
    ((ps.map fun p => (wid, p)).filter fun u => u.1 = i).map Prod.snd =
      if wid = i then ps else [] := by
  by_cases hi : wid = i
  · have hall : ∀ u ∈ ps.map fun p => (wid, p), decide (u.1 = i) = true := by
      intro u hu
      obtain ⟨p, -, rfl⟩ := List.mem_map.1 hu
      exact decide_eq_true hi
    rw [if_pos hi, List.filter_eq_self.2 hall, List.map_map]
    exact List.map_id ps
  · have hnone : ∀ u ∈ ps.map fun p => (wid, p), ¬ decide (u.1 = i) = true := by
      intro u hu
      obtain ⟨p, -, rfl⟩ := List.mem_map.1 hu
      simpa using hi
    rw [if_neg hi, List.filter_eq_nil_iff.2 hnone, List.map_nil]

/-- One step: the channel that takes it merges the pair that it completes. -/
theorem Orderly.step {r : Receiver} (h : s.Orderly owner w r log) (hrt : rt.KeepsWrites am)
    (hstep : Step W rt owner s s') : ∃ log', s'.Orderly owner w r log' := by
  cases hstep with
  | channel wid hw c hc hown =>
    obtain ⟨taken, streams, horderly, hquiet⟩ := h.channel wid
    have hview : (s.view wid).Orderly taken streams :=
      ⟨horderly.intake, horderly.sent, horderly.chain, horderly.recorded⟩
    obtain ⟨taken', streams', hc', hnew⟩ := hview.step hrt hw hc
    obtain ⟨ps, hpairs, hmem⟩ := hc.replica
    have hpairs : c.intake.pairs = (s.channel wid).intake.pairs ++ ps := hpairs
    refine ⟨log ++ ps.map fun p => (wid, p), ?_, ?_, ?_, ?_, ?_⟩
    · intro i
      by_cases hi : i = wid
      · subst hi
        simp only [moved, Function.update_self]
        refine ⟨taken', streams', hc', ?_⟩
        intro items hitems
        rcases hnew items hitems with hold | ⟨pages, hpages, hitem⟩
        · exact hquiet items hold
        · rw [hitem]
          exact pagePairs_quiet hrt (h.own i) fun s hs => (hpages s).1 hs
      · simp only [moved, Function.update_of_ne hi]
        exact h.channel i
    · intro i
      by_cases hi : i = wid
      · subst hi
        simp only [moved, Function.update_self]
        exact hc.head? (h.head i)
      · simp only [moved, Function.update_of_ne hi]
        exact h.head i
    · intro i
      by_cases hi : i = wid
      · subst hi
        simp only [moved, Function.update_self]
        exact hown
      · simp only [moved, Function.update_of_ne hi]
        exact h.own i
    · intro i
      rw [List.filter_append, List.map_append, ← h.pairs i]
      rw [filter_ofWorker]
      by_cases hi : i = wid
      · subst hi
        simp only [moved, Function.update_self, if_true, hpairs]
      · simp only [moved, Function.update_of_ne hi, if_neg (Ne.symm hi), List.append_nil]
    · have hps : c.replica.mem = Replica.applyAll applyPair ps s.replica.mem := hmem
      simp only [moved, hps, h.replica, Replica.applyAll, List.foldl_append, List.foldl_map]

theorem orderly_of_reachable (hrt : rt.KeepsWrites am) (h₀ : s₀.Starts owner w)
    (h : ReflTransGen (Step W rt owner) s₀ s) : ∃ log, s.Orderly owner w s₀.replica log := by
  induction h with
  | refl => exact ⟨[], h₀.orderly⟩
  | tail _ hstep ih =>
    obtain ⟨log, hs⟩ := ih
    exact hs.step hrt hstep

/-- At a byte, only the pairs of its worker matter. -/
theorem Orderly.replica_apply {r : Receiver} (h : s.Orderly owner w r log) (x : ℕ) :
    s.replica.mem x =
      Replica.applyAll applyPair (s.channel (owner x)).intake.pairs r.mem x := by
  have hpointwise : Replica.Pointwise fun u : Wid × (Packet × Packet) => applyPair u.2 := by
    intro u m m' x hx
    exact applyPair_pointwise u.2 m m' x hx
  have hskip : ∀ u ∈ log, ¬ decide (u.1 = owner x) = true →
      ∀ m, applyPair u.2 m x = m x := by
    intro u hu hne m
    rw [decide_eq_true_eq] at hne
    -- the pair is one of those that its worker sent
    obtain ⟨taken, streams, horderly, hquiet⟩ := h.channel u.1
    have hmem : u.2 ∈ (s.channel u.1).intake.pairs := by
      rw [h.pairs]
      exact List.mem_map_of_mem (List.mem_filter.2 ⟨hu, decide_eq_true rfl⟩)
    obtain ⟨items, hitems, hp⟩ := horderly.mem_pairs hmem
    exact hquiet items hitems _ hp m x (Ne.symm hne)
  rw [h.replica, hpointwise.applyAll_filter hskip, h.pairs, Replica.applyAll, Replica.applyAll,
    List.foldl_map]

/-- **The receiver follows every worker.**  When no two workers write the same
    bytes, the receiver's copy of a byte is, after any interleaving of the
    workers and their queues, the one of the last iteration of the byte's worker
    that it received completely, or of the next one; and bytes outside the
    program pages are never changed. -/
theorem hub_follows (hrt : rt.KeepsWrites am) (h₀ : s₀.Starts owner w)
    (h : ReflTransGen (Step W rt owner) s₀ s) :
    (∀ x ∈ am.programBytes, ∃ m,
      (s.channel (owner x)).published[(s.channel (owner x)).intake.ended.length]? = some m ∧
      (s.replica.mem x = m x ∨ ∃ m',
        (s.channel (owner x)).published[(s.channel (owner x)).intake.ended.length + 1]? = some m' ∧
          s.replica.mem x = m' x) ∧
      ((s.channel (owner x)).intake.items = [] → s.replica.mem x = m x)) ∧
    (∀ x ∉ am.programBytes, s.replica.mem x = s₀.replica.mem x) ∧
    ∀ wid, (s.channel wid).queue = [] → (s.channel wid).unsent = [] →
      (s.channel wid).intake.ended.length + 1 = (s.channel wid).published.length := by
  obtain ⟨log, hs⟩ := orderly_of_reachable hrt h₀ h
  refine ⟨?_, ?_, ?_⟩
  · intro x hx
    obtain ⟨taken, streams, hc, -⟩ := hs.channel (owner x)
    have hhead : ∀ m ∈ (s.channel (owner x)).published.head?,
        Set.EqOn (w (owner x)).mem m am.programBytes := by
      intro m hm
      obtain rfl := Option.some.inj ((hs.head (owner x)).symm.trans hm)
      exact Set.eqOn_refl _ _
    obtain ⟨m, hm, hbetween, hexact⟩ := hc.versions hhead
    -- the receiver started with the same byte as the worker
    have hcopy : s.replica.mem x = Replica.applyAll applyPair
        (s.channel (owner x)).intake.pairs (w (owner x)).mem x :=
      (hs.replica_apply x).trans (applyPair_pointwise.applyAll (h₀.agree x hx))
    rw [hcopy]
    exact ⟨m, hm, hbetween x hx, fun hnil => hexact hnil hx⟩
  · intro x hx
    obtain ⟨taken, streams, hc, -⟩ := hs.channel (owner x)
    rw [hs.replica_apply x]
    exact hc.outside _ hx
  · intro wid
    obtain ⟨taken, streams, hc, -⟩ := hs.channel wid
    exact hc.drained

/-- Every worker has the one page, and nothing was written; the receiver has
    the same bytes. -/
def idle : Hub .shifted :=
  ⟨fun _ => .start (onePageWorker fun _ => 0#8) ⟨fun _ => 0#8, fun _ => 0#8⟩,
    ⟨fun _ => 0#8, fun _ => 0#8⟩⟩

theorem idle_starts : idle.Starts (fun _ => 1) fun _ => onePageWorker fun _ => 0#8 where
  channel _ := rfl
  own := by
    intro wid t j hj h
    have htouched : touched (fun _ => 0#8) t.1.addr := h.2.1
    simp [touched] at htouched
  agree _ _ := rfl

/-- The second worker wrote a byte and ended the iteration; nothing is received
    yet. -/
theorem hub_follows_idle :
    let written := idle.moved 1 { idle.view 1 with sender := onePageWorker Channel.writtenMemory }
    let c := written.view 1
    let s := written.moved 1 { c with
      sender := endIter plainRuntime 1 c.sender
      unsent := plainWire.stream c.sender.out (endIter plainRuntime 1 c.sender).out
      published := c.published ++ [c.sender.mem] }
    (∀ x ∈ AddressMap.shifted.programBytes, ∃ m,
      (s.channel 1).published[(s.channel 1).intake.ended.length]? = some m ∧
      (s.replica.mem x = m x ∨ ∃ m',
        (s.channel 1).published[(s.channel 1).intake.ended.length + 1]? = some m' ∧
          s.replica.mem x = m' x) ∧
      ((s.channel 1).intake.items = [] → s.replica.mem x = m x)) ∧
    (∀ x ∉ AddressMap.shifted.programBytes, s.replica.mem x = idle.replica.mem x) ∧
    ∀ wid, (s.channel wid).queue = [] → (s.channel wid).unsent = [] →
      (s.channel wid).intake.ended.length + 1 = (s.channel wid).published.length := by
  intro written c s
  have hbody := @Channel.Step.body _ plainWire plainRuntime 1 (idle.view 1)
    (onePageWorker Channel.writtenMemory) rfl Channel.bodyStep_writtenMemory
  have hend := @Channel.Step.endIter _ plainWire plainRuntime 1 c rfl
    (show 6 < 2 ^ 31 by decide)
  have howned : runIteration plainRuntime.layout 1 c.sender.currentIter :=
    show runIteration StageLayout.oneThenTwo 1 6 by decide
  rw [if_pos howned] at hend
  have h₁ : Step plainWire plainRuntime (fun _ => 1) idle written :=
    .channel idle 1 (by decide) _ hbody fun _ _ _ _ => rfl
  have h₂ : Step plainWire plainRuntime (fun _ => 1) written s :=
    .channel written 1 (by decide) _ hend fun _ _ _ _ => rfl
  have hrun : ReflTransGen (Step plainWire plainRuntime fun _ => 1) idle s :=
    (ReflTransGen.single h₁).tail h₂
  exact hub_follows Channel.plainRuntime_keepsWrites idle_starts hrun

end Hub

end SpecPriv
