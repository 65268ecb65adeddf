/-
  Packets in flight and the pool they come from.

  A worker forwards pages word by word (`forward_pair` in packet mode), takes a
  packet of its pool for each word, and a consumer sets `ptr` to null after it
  consumed a packet.  The pool takes a packet with a null `ptr` for available,
  but the packets with metadata are sent with a null `ptr`.

  `Link` is the state of the worker, its pool and its consumer; the worker goes
  on by single probes of the pool, between which the consumer does anything it
  can do (`Link.Step`).

  * `Link.probes_getAvailablePacket`: the probes together are
    `get_available_packet`;
  * `neverReuses_iff`: no packet in flight is handed out again, in all runs,
    iff the calls send no more packets than the pool has, or a pool of one
    packet serves one pair.
-/
import Mathlib.Logic.Relation
import SpecPriv.Orig.Scans
import SpecPriv.Trans.PacketPool

namespace SpecPriv

open SpecPriv.Trans FreeSlots Ring

/-! ## What is sent -/

/-- A call of `forward_pair` in packet mode, for a shadow page of the memory
    `m`. -/
structure PairCall (am : AddressMap) where
  nonzero : ℕ
  iter : ℕ
  m : Memory
  shadow : am.Shadow
  check : Check
  nonzero_pos : 1 ≤ nonzero
  nonzero_le : nonzero ≤ 8

variable {am : AddressMap}

/-- The third arguments of `forward_packet` in a list of calls. -/
def packetPtrs (log : List Call) : List ℕ := log.filterMap fun c =>
  match c with
  | .forwardPacket _ _ ptr _ _ _ => some ptr
  | _ => none

/-- The packets that a call sends, given by their `ptr`. -/
def PairCall.packets (wid : Wid) (c : PairCall am) : List ℕ :=
  packetPtrs (forwardPair c.nonzero wid c.iter (am.getOriginalOf c.shadow).addr c.shadow.1.addr
    c.check ⟨c.m, .init⟩).out.log

/-- The packets that a sequence of calls sends. -/
def packetsOf (wid : Wid) (calls : List (PairCall am)) : List ℕ :=
  calls.flatMap (PairCall.packets wid)

/-! ## The worker, the pool and the consumer -/

/-- Where the worker is. -/
inductive SenderAt
  | idle
  /-- in the loop of `get_available_packet` -/
  | searching (next : ℕ)
  /-- `get_available_packet` has returned -/
  | acquired (p : ℕ)

structure Link where
  pools : PacketPools
  sender : SenderAt
  /-- `ptr` of the packets that are still to be sent -/
  todo : List ℕ
  /-- sent and not yet consumed -/
  inFlight : List ℕ
  /-- consumed, and `ptr` not yet set to null -/
  consumed : List ℕ

/-- One round of the loop of `get_available_packet`. -/
def Link.probe (wid next : ℕ) (s : Link) : Link :=
  let first := s.pools.packetBegins wid
  let (available, pools) := PacketPools.isPacketAvailable next s.pools
  let after := PacketPools.nextPacket first (s.pools.packetEnds wid) next
  if available then
    { s with pools := (PoolId.worker wid).moveTo after pools, sender := .acquired next }
  else { s with pools := pools, sender := .searching after }

inductive Link.Step (wid : ℕ) : Link → Link → Prop
  /-- the worker calls `forward_packet` -/
  | call (s : Link) (hidle : s.sender = .idle) (htodo : s.todo ≠ []) :
    Step wid s { s with sender := .searching (s.pools.packetNexts wid) }
  | probe (s : Link) (next : ℕ) (h : s.sender = .searching next) : Step wid s (s.probe wid next)
  /-- the packet gets its `ptr` and is sent -/
  | send (s : Link) (p v : ℕ) (todo : List ℕ) (h : s.sender = .acquired p)
    (htodo : s.todo = v :: todo) :
    Step wid s { s with
      pools := s.pools.store p v
      sender := .idle
      todo := todo
      inFlight := s.inFlight ++ [p] }
  | consume (s : Link) (p : ℕ) (h : p ∈ s.inFlight) :
    Step wid s { s with inFlight := s.inFlight.erase p, consumed := p :: s.consumed }
  /-- the consumer marks a packet consumed -/
  | clear (s : Link) (p : ℕ) (h : p ∈ s.consumed) :
    Step wid s { s with pools := s.pools.store p 0, consumed := s.consumed.erase p }

/-- Any number of steps. -/
def Link.Reaches (wid : ℕ) : Link → Link → Prop := Relation.ReflTransGen (Link.Step wid)

/-- The packet that `get_available_packet` returned is not in flight. -/
def Link.Fresh (s : Link) : Prop := ∀ p, s.sender = .acquired p → p ∉ s.inFlight

/-- Worker `wid` has a pool of `cap` packets at `first`, as it is mapped. -/
def mappedPools (wid first cap : ℕ) : PacketPools where
  packetBegins := Function.update (fun _ => 0) wid first
  packetEnds := Function.update (fun _ => 0) wid (packetAt first cap)
  packetNexts := Function.update (fun _ => 0) wid first
  commitProcessPacketBegin := 0
  commitProcessPacketEnd := 0
  commitProcessPacketNext := 0
  ptr _ := 0
  accessed := []

def Link.start (wid first cap : ℕ) (packets : List ℕ) : Link :=
  ⟨mappedPools wid first cap, .idle, packets, [], []⟩

/-- In no run that sends these packets is one handed out that is in flight. -/
def NeverReuses (wid first cap : ℕ) (packets : List ℕ) : Prop :=
  ∀ s, Link.Reaches wid (.start wid first cap packets) s → s.Fresh

variable {wid first cap next p v k : ℕ} {s s' : Link} {packets : List ℕ}

/-! ## The probes are `get_available_packet` -/

theorem Link.probe_available (h : s.pools.ptr next = 0) : s.probe wid next =
    { s with
      pools := (PoolId.worker wid).moveTo (PacketPools.nextPacket (s.pools.packetBegins wid)
        (s.pools.packetEnds wid) next) (s.pools.access [next])
      sender := .acquired next } := by
  simp [Link.probe, PacketPools.isPacketAvailable, h]

theorem Link.probe_busy (h : s.pools.ptr next ≠ 0) : s.probe wid next =
    { s with
      pools := s.pools.access [next]
      sender := .searching (PacketPools.nextPacket (s.pools.packetBegins wid)
        (s.pools.packetEnds wid) next) } := by
  simp [Link.probe, PacketPools.isPacketAvailable, h]

/-- A probe that finds the packet available. -/
theorem Link.step_available (hs : s.sender = .searching next) (h : s.pools.ptr next = 0) :
    Link.Step wid s { s with
      pools := (PoolId.worker wid).moveTo (PacketPools.nextPacket (s.pools.packetBegins wid)
        (s.pools.packetEnds wid) next) (s.pools.access [next])
      sender := .acquired next } := by
  rw [← Link.probe_available h]
  exact .probe s next hs

/-- A probe that finds the packet busy. -/
theorem Link.step_busy (hs : s.sender = .searching next) (h : s.pools.ptr next ≠ 0) :
    Link.Step wid s { s with
      pools := s.pools.access [next]
      sender := .searching (PacketPools.nextPacket (s.pools.packetBegins wid)
        (s.pools.packetEnds wid) next) } := by
  rw [← Link.probe_busy h]
  exact .probe s next hs

theorem Link.probes_searchAvailable {fuel : ℕ} {pools : PacketPools}
    (h : PacketPools.searchAvailable (s.pools.packetBegins wid) (s.pools.packetEnds wid) fuel next
      s.pools = some (p, pools)) (hs : s.sender = .searching next) :
    Link.Reaches wid s { s with
      pools := (PoolId.worker wid).moveTo (PacketPools.nextPacket (s.pools.packetBegins wid)
        (s.pools.packetEnds wid) p) pools
      sender := .acquired p } := by
  induction fuel generalizing s next with
  | zero => cases h
  | succ fuel ih =>
    by_cases hfree : s.pools.ptr next = 0
    · simp only [PacketPools.searchAvailable, PacketPools.isPacketAvailable, hfree, decide_true,
        if_true, Option.some.injEq, Prod.mk.injEq] at h
      obtain ⟨rfl, rfl⟩ := h
      exact .single (Link.step_available hs hfree)
    · simp only [PacketPools.searchAvailable, PacketPools.isPacketAvailable, hfree, decide_false,
        Bool.false_eq_true, if_false] at h
      exact .head (Link.step_busy hs hfree) (ih h rfl)

/-- Without interference the probes of a call are `get_available_packet`. -/
theorem Link.probes_getAvailablePacket {fuel : ℕ} {pools : PacketPools}
    (h : s.pools.getAvailablePacket fuel wid = some (p, pools))
    (hs : s.sender = .searching (s.pools.packetNexts wid)) :
    Link.Reaches wid s { s with pools := pools, sender := .acquired p } := by
  have hget : (PoolId.worker wid).getAvailable fuel s.pools = some (p, pools) := h
  rw [PoolId.getAvailable_eq, Option.bind_eq_some_iff] at hget
  obtain ⟨⟨p', pools'⟩, hsearch, hres⟩ := hget
  obtain ⟨rfl, rfl⟩ := Prod.mk.inj (Option.some.inj hres)
  obtain ⟨ps, rfl⟩ := searchAvailable_access hsearch
  exact Link.probes_searchAvailable hsearch hs

/-! ## The packets that are out

They are those in flight and those that are not yet marked consumed. -/

variable {inFlight consumed : List ℕ}

theorem out_send (p : ℕ) (inFlight consumed : List ℕ) :
    (inFlight ++ [p] ++ consumed).Perm (p :: (inFlight ++ consumed)) := by
  rw [List.append_assoc]
  exact List.perm_middle

theorem out_consume (h : p ∈ inFlight) (consumed : List ℕ) :
    (inFlight.erase p ++ p :: consumed).Perm (inFlight ++ consumed) := by
  refine List.perm_middle.trans ?_
  rw [← List.cons_append]
  exact (List.perm_cons_erase h).symm.append_right _

theorem out_clear (h : p ∈ consumed) (inFlight : List ℕ) :
    (p :: (inFlight ++ consumed.erase p)).Perm (inFlight ++ consumed) :=
  List.perm_middle.symm.trans ((List.perm_cons_erase h).symm.append_left _)

/-! ## Runs that send little -/

/-- Only the last packet to be sent may have a null `ptr`.  Then, as long as
    there is one to be sent, the packets in flight are busy. -/
structure Link.Guarded (s : Link) : Prop where
  nonnull : ∀ v ∈ s.todo.dropLast, v ≠ 0
  busy : s.todo ≠ [] → ∀ p ∈ s.inFlight ++ s.consumed, s.pools.ptr p ≠ 0
  nodup : (s.inFlight ++ s.consumed).Nodup
  active : s.sender ≠ .idle → s.todo ≠ []
  fresh : ∀ p, s.sender = .acquired p → p ∉ s.inFlight ++ s.consumed

theorem Link.Guarded.step (h : s.Guarded) (hs : Link.Step wid s s') : s'.Guarded := by
  cases hs with
  | call hidle htodo =>
    refine ⟨h.nonnull, h.busy, h.nodup, fun _ => htodo, ?_⟩
    intro p hp
    cases hp
  | probe next hnext =>
    have htodo : s.todo ≠ [] := h.active (by simp [hnext])
    by_cases hfree : s.pools.ptr next = 0
    · rw [Link.probe_available hfree]
      refine ⟨h.nonnull, ?_, h.nodup, fun _ => htodo, ?_⟩
      · simpa using h.busy
      · intro p hp
        obtain rfl := SenderAt.acquired.inj hp
        intro hmem
        exact h.busy htodo _ hmem hfree
    · rw [Link.probe_busy hfree]
      refine ⟨h.nonnull, ?_, h.nodup, fun _ => htodo, ?_⟩
      · simpa using h.busy
      · intro p hp
        cases hp
  | send p v todo hp htodo =>
    have hnew := h.fresh p hp
    have hbusy := h.busy (by simp [htodo])
    have hnonnull := h.nonnull
    rw [htodo] at hnonnull
    refine ⟨?_, ?_, ?_, by simp, by simp⟩
    · intro w hw
      cases todo with
      | nil => cases hw
      | cons u todo => exact hnonnull w (List.mem_cons_of_mem v hw)
    · intro htodo' q hq
      have hv : v ≠ 0 := by
        cases todo with
        | nil => exact absurd rfl htodo'
        | cons u todo => exact hnonnull v List.mem_cons_self
      by_cases hqp : q = p
      · simpa [hqp] using hv
      · have hq' : q ∈ s.inFlight ++ s.consumed := by simpa [hqp] using hq
        simpa [hqp] using hbusy q hq'
    · have hperm := out_send p s.inFlight s.consumed
      exact hperm.nodup_iff.2 (List.nodup_cons.2 ⟨hnew, h.nodup⟩)
  | consume p hp =>
    have hperm := out_consume hp s.consumed
    refine ⟨h.nonnull, ?_, hperm.nodup_iff.2 h.nodup, h.active, ?_⟩
    · intro htodo q hq
      exact h.busy htodo q (hperm.mem_iff.1 hq)
    · intro q hq
      rw [hperm.mem_iff]
      exact h.fresh q hq
  | clear p hp =>
    have hperm := out_clear hp s.inFlight
    obtain ⟨hnot, hnodup⟩ := List.nodup_cons.1 (hperm.nodup_iff.2 h.nodup)
    refine ⟨h.nonnull, ?_, hnodup, h.active, ?_⟩
    · intro htodo q hq
      have hqp : q ≠ p := by
        rintro rfl
        exact hnot hq
      have hq' := hperm.mem_iff.1 (List.mem_cons_of_mem p hq)
      simpa [hqp] using h.busy htodo q hq'
    · intro q hq hmem
      exact h.fresh q hq (hperm.mem_iff.1 (List.mem_cons_of_mem p hmem))

theorem Link.Guarded.reaches (h : s.Guarded) (hs : Link.Reaches wid s s') : s'.Guarded := by
  induction hs with
  | refl => exact h
  | tail _ hstep ih => exact ih.step hstep

/-- Where only the last packet has a null `ptr`, none is reused. -/
theorem neverReuses_of_nonnull (h : ∀ v ∈ packets.dropLast, v ≠ 0) :
    NeverReuses wid first cap packets := by
  intro s hs p hp hmem
  have hstart : (Link.start wid first cap packets).Guarded := by
    refine ⟨h, ?_, List.nodup_nil, ?_, ?_⟩
    · intro _ p hp
      cases hp
    · intro hidle
      exact absurd rfl hidle
    · intro p hp
      cases hp
  exact (hstart.reaches hs).fresh p hp (List.mem_append_left _ hmem)

/-! ## Runs that do not go round the pool -/

/-- Where the worker is when it has sent `k` packets, one in each of the first
    `k` packets of the pool. -/
def Link.At (wid first cap k : ℕ) (s : Link) : SenderAt → Prop
  | .idle => s.todo ≠ [] → s.pools.packetNexts wid = packetAt first k
  | .searching next => s.todo ≠ [] ∧ next = packetAt first k
  | .acquired p => s.todo ≠ [] ∧ p = packetAt first k ∧
    (k + 1 < cap → s.pools.packetNexts wid = packetAt first (k + 1))

/-- `k` packets were sent, each in a packet of the pool of its own. -/
structure Link.Spread (wid first cap : ℕ) (packets : List ℕ) (k : ℕ) (s : Link) : Prop where
  first_eq : s.pools.packetBegins wid = first
  bound_eq : s.pools.packetEnds wid = packetAt first cap
  todo_eq : s.todo = packets.drop k
  at_sender : s.At wid first cap k s.sender
  unsent : ∀ j, k ≤ j → s.pools.ptr (packetAt first j) = 0
  sent : ∀ p ∈ s.inFlight ++ s.consumed, ∃ j < k, p = packetAt first j

theorem Link.Spread.lt (h : s.Spread wid first cap packets k) (hle : packets.length ≤ cap)
    (htodo : s.todo ≠ []) : k < cap := by
  by_contra hk
  refine htodo ?_
  rw [h.todo_eq, List.drop_eq_nil_of_le (by omega)]

theorem Link.Spread.step (h : s.Spread wid first cap packets k) (hle : packets.length ≤ cap)
    (hs : Link.Step wid s s') : ∃ k', s'.Spread wid first cap packets k' := by
  cases hs with
  | call hidle htodo =>
    have hat := h.at_sender
    rw [hidle] at hat
    exact ⟨k, h.first_eq, h.bound_eq, h.todo_eq, ⟨htodo, hat htodo⟩, h.unsent, h.sent⟩
  | probe next hnext =>
    have hat := h.at_sender
    rw [hnext] at hat
    obtain ⟨htodo, rfl⟩ := hat
    have hk := h.lt hle htodo
    rw [Link.probe_available (h.unsent k le_rfl), h.first_eq, h.bound_eq, nextPacket_packetAt]
    refine ⟨k, h.first_eq, h.bound_eq, h.todo_eq, ⟨htodo, rfl, ?_⟩, h.unsent, h.sent⟩
    intro hk1
    refine ((PoolId.worker wid).next_moveTo _).trans ?_
    rw [FreeSlots.succ, if_neg (by omega)]
  | send p v todo hp htodo =>
    have hat := h.at_sender
    rw [hp] at hat
    obtain ⟨hne, rfl, hnext⟩ := hat
    have hrest : todo = packets.drop (k + 1) := by
      rw [← List.tail_drop, ← h.todo_eq, htodo, List.tail_cons]
    have hk := h.lt hle hne
    refine ⟨k + 1, h.first_eq, h.bound_eq, hrest, ?_, ?_, ?_⟩
    · intro hne'
      refine hnext ?_
      by_contra hk1
      exact hne' (hrest.trans (List.drop_eq_nil_of_le (by omega)))
    · intro j hj
      have hjk : packetAt first j ≠ packetAt first k := by
        rw [Ne, packetAt_inj]
        omega
      simpa [hjk] using h.unsent j (by omega)
    · intro p hp
      rcases List.mem_cons.1 ((out_send _ _ _).mem_iff.1 hp) with rfl | hp
      · exact ⟨k, k.lt_succ_self, rfl⟩
      · obtain ⟨j, hj, hpj⟩ := h.sent p hp
        exact ⟨j, hj.trans k.lt_succ_self, hpj⟩
  | consume p hp =>
    refine ⟨k, h.first_eq, h.bound_eq, h.todo_eq, h.at_sender, h.unsent, ?_⟩
    intro q hq
    exact h.sent q ((out_consume hp _).mem_iff.1 hq)
  | clear p hp =>
    refine ⟨k, h.first_eq, h.bound_eq, h.todo_eq, h.at_sender, ?_, ?_⟩
    · intro j hj
      rw [PacketPools.ptr_store, Function.update_apply, h.unsent j hj, ite_self]
    · intro q hq
      exact h.sent q ((out_clear hp _).mem_iff.1 (List.mem_cons_of_mem p hq))

theorem Link.Spread.start (wid first cap : ℕ) (packets : List ℕ) :
    (Link.start wid first cap packets).Spread wid first cap packets 0 where
  first_eq := by simp [Link.start, mappedPools]
  bound_eq := by simp [Link.start, mappedPools]
  todo_eq := rfl
  at_sender _ := by simp [Link.start, mappedPools, packetAt]
  unsent _ _ := rfl
  sent _ hp := absurd hp List.not_mem_nil

theorem Link.Spread.reaches (hle : packets.length ≤ cap)
    (hs : Link.Reaches wid (.start wid first cap packets) s) :
    ∃ k, s.Spread wid first cap packets k := by
  induction hs with
  | refl => exact ⟨0, .start wid first cap packets⟩
  | tail _ hstep ih =>
    obtain ⟨k, hk⟩ := ih
    exact hk.step hle hstep

/-- With a packet of the pool for each packet to be sent, none is reused. -/
theorem neverReuses_of_length_le (hle : packets.length ≤ cap) :
    NeverReuses wid first cap packets := by
  intro s hs p hp hmem
  obtain ⟨k, hk⟩ := Link.Spread.reaches hle hs
  have hat := hk.at_sender
  rw [hp] at hat
  obtain ⟨j, hj, hpj⟩ := hk.sent p (List.mem_append_left _ hmem)
  rw [hat.2.1, packetAt_inj] at hpj
  omega

/-! ## Runs that send more -/

/-- The worker sends its next packet, in `p`. -/
def Link.sendIn (wid p v : ℕ) (todo : List ℕ) (s : Link) : Link where
  pools := ((PoolId.worker wid).moveTo (PacketPools.nextPacket (s.pools.packetBegins wid)
    (s.pools.packetEnds wid) p) (s.pools.access [p])).store p v
  sender := .idle
  todo := todo
  inFlight := s.inFlight ++ [p]
  consumed := s.consumed

/-- The worker calls `forward_packet` and gets the packet where the search
    starts. -/
theorem Link.reaches_acquired (hidle : s.sender = .idle) (htodo : s.todo ≠ [])
    (hnext : s.pools.packetNexts wid = p) (hfree : s.pools.ptr p = 0) :
    Link.Reaches wid s { s with
      pools := (PoolId.worker wid).moveTo (PacketPools.nextPacket (s.pools.packetBegins wid)
        (s.pools.packetEnds wid) p) (s.pools.access [p])
      sender := .acquired p } := by
  subst hnext
  exact .head (.call s hidle htodo) (.single (Link.step_available rfl hfree))

theorem Link.reaches_sendIn {todo : List ℕ} (hidle : s.sender = .idle) (htodo : s.todo = v :: todo)
    (hnext : s.pools.packetNexts wid = p) (hfree : s.pools.ptr p = 0) :
    Link.Reaches wid s (s.sendIn wid p v todo) := by
  have hne : s.todo ≠ [] := by simp [htodo]
  exact (Link.reaches_acquired hidle hne hnext hfree).tail (.send _ p v todo rfl htodo)

/-- Nothing was consumed, and `k` packets were sent, in the first `k` packets
    of the pool. -/
structure Link.Laid (wid first cap : ℕ) (packets : List ℕ) (k : ℕ) (s : Link) : Prop where
  first_eq : s.pools.packetBegins wid = first
  bound_eq : s.pools.packetEnds wid = packetAt first cap
  next_eq : s.pools.packetNexts wid = packetAt first (slot cap 0 k)
  idle : s.sender = .idle
  todo_eq : s.todo = packets.drop k
  sent : ∀ j (hj : j < packets.length), j < k → s.pools.ptr (packetAt first j) = packets[j]
  unsent : ∀ j, k ≤ j → s.pools.ptr (packetAt first j) = 0
  inFlight : s.inFlight = (List.range k).map (packetAt first)

theorem Link.Laid.step (h : s.Laid wid first cap packets k) (hk : k < cap)
    (hlen : k < packets.length) :
    ∃ s', Link.Reaches wid s s' ∧ s'.Laid wid first cap packets (k + 1) := by
  have hcap : 0 < cap := by omega
  have hslot : slot cap 0 k = k := by rw [slot, Nat.zero_add, Nat.mod_eq_of_lt hk]
  have hnext := h.next_eq
  rw [hslot] at hnext
  have htodo : s.todo = packets[k] :: packets.drop (k + 1) := by
    rw [h.todo_eq, List.drop_eq_getElem_cons hlen]
  refine ⟨_, Link.reaches_sendIn h.idle htodo hnext (h.unsent k le_rfl), ?_⟩
  refine ⟨h.first_eq, h.bound_eq, ?_, rfl, rfl, ?_, ?_, ?_⟩
  · refine ((PoolId.worker wid).next_moveTo _).trans ?_
    rw [h.first_eq, h.bound_eq, nextPacket_packetAt, ← succ_slot hcap, hslot]
  · intro j hj hjk
    rcases Nat.lt_succ_iff_lt_or_eq.1 hjk with hlt | rfl
    · have hne : packetAt first j ≠ packetAt first k := by
        rw [Ne, packetAt_inj]
        omega
      simpa [Link.sendIn, hne] using h.sent j hj hlt
    · simp [Link.sendIn]
  · intro j hj
    have hne : packetAt first j ≠ packetAt first k := by
      rw [Ne, packetAt_inj]
      omega
    simpa [Link.sendIn, hne] using h.unsent j (by omega)
  · simp [Link.sendIn, h.inFlight, List.range_succ]

theorem Link.laid_of_le (wid first : ℕ) (packets : List ℕ) (hcap : 0 < cap) :
    ∀ k ≤ cap, k ≤ packets.length →
    ∃ s, Link.Reaches wid (.start wid first cap packets) s ∧ s.Laid wid first cap packets k
  | 0, _, _ => by
    have hslot : slot cap 0 0 = 0 := slot_zero hcap
    refine ⟨_, .refl, ?_, ?_, ?_, rfl, rfl, ?_, ?_, rfl⟩
    · simp [Link.start, mappedPools]
    · simp [Link.start, mappedPools]
    · simp [Link.start, mappedPools, hslot, packetAt]
    · simp
    · intro j _
      rfl
  | k + 1, hk, hlen => by
    obtain ⟨s, hs, hlaid⟩ := Link.laid_of_le wid first packets hcap k (by omega) (by omega)
    obtain ⟨s', hs', hlaid'⟩ := hlaid.step (by omega) (by omega)
    exact ⟨s', hs.trans hs', hlaid'⟩

/-- A packet that is free and in flight where the search starts is reused. -/
theorem not_fresh_of_reaches {s₀ : Link} (hs : Link.Reaches wid s₀ s) (hidle : s.sender = .idle)
    (htodo : s.todo ≠ []) (hnext : s.pools.packetNexts wid = p) (hfree : s.pools.ptr p = 0)
    (hmem : p ∈ s.inFlight) : ∃ s', Link.Reaches wid s₀ s' ∧ ¬ s'.Fresh := by
  refine ⟨_, hs.trans (Link.reaches_acquired hidle htodo hnext hfree), ?_⟩
  intro hfresh
  exact hfresh p rfl hmem

variable {a b : ℕ} {rest : List ℕ}

/-- A pool of one packet: the packet with metadata is sent in it after the
    first one is consumed, and is then taken for available. -/
theorem reuses_of_one : ∃ s, Link.Reaches wid (.start wid first 1 (a :: 0 :: b :: rest)) s ∧
    ¬ s.Fresh := by
  obtain ⟨s, hs, h⟩ :=
    Link.laid_of_le wid first (a :: 0 :: b :: rest) Nat.one_pos 1 le_rfl (by simp)
  have hmem : packetAt first 0 ∈ s.inFlight := by simp [h.inFlight]
  have hnext : s.pools.packetNexts wid = packetAt first 0 := h.next_eq
  have hs₁ := (hs.tail (.consume s _ hmem)).tail (.clear _ _ List.mem_cons_self)
  -- the second packet, with a null `ptr`
  have hs₂ := hs₁.trans (Link.reaches_sendIn h.idle h.todo_eq hnext (Function.update_self ..))
  refine not_fresh_of_reaches hs₂ rfl (List.cons_ne_nil _ _) ?_ (Function.update_self ..) ?_
  · refine ((PoolId.worker wid).next_moveTo _).trans ?_
    show PacketPools.nextPacket (s.pools.packetBegins wid) (s.pools.packetEnds wid) _ = _
    rw [h.first_eq, h.bound_eq, nextPacket_packetAt]
    rfl
  · exact List.mem_append_right _ (List.mem_singleton_self _)

/-- A larger pool: when the search starts from the beginning again, the first
    packet is busy and the second one taken for available. -/
theorem reuses_of_wrap (hcap : 1 < cap) (ha : a ≠ 0)
    (hlen : cap < (a :: 0 :: b :: rest).length) :
    ∃ s, Link.Reaches wid (.start wid first cap (a :: 0 :: b :: rest)) s ∧ ¬ s.Fresh := by
  obtain ⟨s, hs, h⟩ :=
    Link.laid_of_le wid first (a :: 0 :: b :: rest) (by omega : 0 < cap) cap le_rfl hlen.le
  have hslot : slot cap 0 cap = 0 := by rw [slot, Nat.zero_add, Nat.mod_self]
  have hnext := h.next_eq
  rw [hslot] at hnext
  have htodo : s.todo ≠ [] := by
    rw [h.todo_eq, Ne, List.drop_eq_nil_iff]
    omega
  have hbusy : s.pools.ptr (packetAt first 0) ≠ 0 := by
    rw [h.sent 0 (by simp) (by omega)]
    exact ha
  have hfree : s.pools.ptr (packetAt first 1) = 0 := h.sent 1 (by simp) hcap
  have hmem : packetAt first 1 ∈ s.inFlight := by
    rw [h.inFlight]
    exact List.mem_map_of_mem (List.mem_range.2 hcap)
  -- one probe of the first packet, one of the second
  have hs₁ := (hs.tail (.call s h.idle htodo)).tail (Link.step_busy (by rw [hnext]) hbusy)
  rw [h.first_eq, h.bound_eq, nextPacket_packetAt, FreeSlots.succ, if_neg (by omega)] at hs₁
  refine ⟨_, hs₁.tail (Link.step_available rfl hfree), ?_⟩
  intro hfresh
  exact hfresh _ rfl hmem

/-! ## What the calls send -/

/-- The packets for some words, given by the addresses of the words: each
    followed by the one with its metadata. -/
def pairs (ws : List ℕ) : List ℕ := ws.flatMap fun w => [w, 0]

/-- The addresses of the words that a call sends. -/
def PairCall.words (c : PairCall am) : List ℕ :=
  (markedWords c.m (am.getOriginalOf c.shadow).addr c.shadow.1.addr (pageSize / 8)).map Prod.fst

/-- The number of words that a sequence of calls sends. -/
def wordsSent (calls : List (PairCall am)) : ℕ :=
  (calls.map fun c => nonzeroWords c.m c.shadow.1.addr).sum

theorem packetPtrs_words (wid : Wid) (iter : ℕ) (check : Check)
    (ws : List (ℕ × BitVec 64 × BitVec 64)) :
    packetPtrs ((Parcel.words ws).calls wid iter check) = pairs (ws.map Prod.fst) := by
  induction ws with
  | nil => rfl
  | cons w ws ih =>
    simp only [Parcel.calls, packetPtrs, pairs, List.flatMap_cons, List.filterMap_append,
      List.map_cons] at ih ⊢
    rw [ih]
    rfl

theorem PairCall.packets_eq (wid : Wid) (c : PairCall am) : c.packets wid = pairs c.words := by
  have hne : c.nonzero ≠ 0 := Nat.pos_iff_ne_zero.1 c.nonzero_pos
  rw [PairCall.packets, forwardPair_packets hne c.nonzero_le]
  show packetPtrs ([] ++ _) = _
  rw [List.nil_append, packetPtrs_words]
  rfl

theorem packetsOf_eq (wid : Wid) (calls : List (PairCall am)) :
    packetsOf wid calls = pairs (calls.flatMap PairCall.words) := by
  induction calls with
  | nil => rfl
  | cons c calls ih =>
    simp only [packetsOf, pairs, List.flatMap_cons, List.flatMap_append] at ih ⊢
    rw [ih, PairCall.packets_eq]
    rfl

theorem words_length (calls : List (PairCall am)) :
    (calls.flatMap PairCall.words).length = wordsSent calls := by
  induction calls with
  | nil => rfl
  | cons c calls ih =>
    have hword : c.words.length = nonzeroWords c.m c.shadow.1.addr := by
      rw [PairCall.words, List.length_map, markedWords_length, nonzeroWords]
    rw [List.flatMap_cons, List.length_append, ih, hword]
    simp [wordsSent]

/-- No word of a program page is at the null address. -/
theorem words_ne_zero (calls : List (PairCall am)) : ∀ w ∈ calls.flatMap PairCall.words, w ≠ 0 := by
  intro w hw
  obtain ⟨c, -, hw⟩ := List.mem_flatMap.1 hw
  obtain ⟨x, hx, rfl⟩ := List.mem_map.1 hw
  obtain ⟨k, -, rfl⟩ := List.mem_map.1 hx
  have h0 := am.original_ne_null c.shadow
  show _ + 8 * k ≠ 0
  omega

theorem pairs_length (ws : List ℕ) : (pairs ws).length = 2 * ws.length := by
  induction ws with
  | nil => rfl
  | cons w ws ih =>
    simp only [pairs, List.flatMap_cons, List.length_append, List.length_cons,
      List.length_nil] at ih ⊢
    omega

/-- Two words or more, and more packets than the pool has: a packet in flight
    is handed out in some run. -/
theorem not_neverReuses {ws : List ℕ} (hcap : 0 < cap) (hne : ∀ w ∈ ws, w ≠ 0)
    (htwo : 1 < ws.length) (hmany : cap < 2 * ws.length) :
    ¬ NeverReuses wid first cap (pairs ws) := by
  intro h
  rcases ws with _ | ⟨a, _ | ⟨b, ws⟩⟩
  · simp at htwo
  · simp at htwo
  · have hlen := pairs_length (a :: b :: ws)
    have ha : a ≠ 0 := hne a List.mem_cons_self
    have hbad : ∃ s, Link.Reaches wid (.start wid first cap (pairs (a :: b :: ws))) s ∧
        ¬ s.Fresh := by
      rcases Nat.eq_or_lt_of_le (Nat.succ_le_of_lt hcap) with rfl | hcap'
      · exact reuses_of_one
      · exact reuses_of_wrap hcap' ha (hlen.symm ▸ hmany)
    obtain ⟨s, hs, hnot⟩ := hbad
    exact hnot (h s hs)

/-- **When no packet in flight is reused**, in all runs of the worker and its
    consumer: iff the calls send no more packets than the pool has, or one
    pair at most. -/
theorem neverReuses_iff (wid : Wid) (first cap : ℕ) (hcap : 0 < cap) (calls : List (PairCall am)) :
    NeverReuses wid.toNat first cap (packetsOf wid calls) ↔
      2 * wordsSent calls ≤ cap ∨ wordsSent calls ≤ 1 := by
  rw [packetsOf_eq, ← words_length]
  have hne := words_ne_zero calls
  generalize calls.flatMap PairCall.words = ws at hne
  constructor
  · intro h
    by_contra hcond
    rw [not_or, Nat.not_le, Nat.not_le] at hcond
    exact not_neverReuses hcap hne hcond.2 hcond.1 h
  · rintro (hle | hone)
    · refine neverReuses_of_length_le ?_
      rwa [pairs_length]
    · refine neverReuses_of_nonnull ?_
      rcases ws with _ | ⟨a, _ | ⟨b, ws⟩⟩
      · simp [pairs]
      · simpa [pairs] using hne
      · simp at hone

/-- A page with two non-zero words of metadata. -/
def PairCall.twoWords : PairCall AddressMap.shifted where
  nonzero := 2
  iter := 0
  m x := if x = onePage.1.addr ∨ x = onePage.1.addr + 8 then 3#8 else 0#8
  shadow := onePage
  check := .required
  nonzero_pos := Nat.le_of_lt Nat.one_lt_two
  nonzero_le := Nat.le_add_right 2 6

theorem load64_twoWords (k : ℕ) :
    load64 PairCall.twoWords.m (onePage.1.addr + 8 * k) ≠ 0#64 ↔ k < 2 := by
  rw [Ne, load64_eq_zero_iff]
  constructor
  · intro h
    by_contra hk
    refine h ?_
    intro j hj
    refine if_neg ?_
    omega
  · intro hk h
    have h0 : PairCall.twoWords.m (onePage.1.addr + 8 * k + 0) = 3#8 := by
      refine if_pos ?_
      omega
    rw [h 0 (by decide)] at h0
    cases h0

theorem countP_range_lt_two (n : ℕ) :
    (List.range (2 + n)).countP (fun k => decide (k < 2)) = 2 := by
  induction n with
  | zero => rfl
  | succ n ih =>
    have hlast : decide (2 + n < 2) = false := decide_eq_false (by omega)
    rw [← Nat.add_assoc, List.range_succ, List.countP_append, ih, List.countP_singleton, hlast]
    rfl

theorem wordsSent_twoWords : wordsSent [PairCall.twoWords] = 2 := by
  have hcount : nonzeroWords PairCall.twoWords.m onePage.1.addr = 2 := by
    have hwords : pageSize / 8 = 2 + 510 := rfl
    unfold nonzeroWords nonzeroBelow
    simp only [load64_twoWords, hwords]
    exact countP_range_lt_two 510
  have hshadow : PairCall.twoWords.shadow = onePage := rfl
  rw [wordsSent, List.map_singleton, List.sum_singleton, hshadow]
  exact hcount

theorem neverReuses_iff_twoWords :
    NeverReuses (0 : Wid).toNat 0x1000 4 (packetsOf 0 [PairCall.twoWords]) ↔
      2 * wordsSent [PairCall.twoWords] ≤ 4 ∨ wordsSent [PairCall.twoWords] ≤ 1 :=
  neverReuses_iff 0 0x1000 4 (by decide) _

/-- A pool of two packets and four packets to be sent. -/
theorem not_neverReuses_twoWords :
    ¬ NeverReuses (0 : Wid).toNat 0x1000 2 (packetsOf 0 [PairCall.twoWords]) := by
  have hlen := (words_length [PairCall.twoWords]).trans wordsSent_twoWords
  rw [packetsOf_eq]
  refine not_neverReuses Nat.two_pos (words_ne_zero _) ?_ ?_
  · rw [hlen]
    exact Nat.one_lt_two
  · rw [hlen]
    decide

end SpecPriv
