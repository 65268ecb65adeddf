/-
  The pools of packets of `packet.c`, with pointers.

  A pool is the memory between two pointers; a third one, where the search for
  an available packet starts, goes round the pool.  A packet is available when
  its field `ptr` is null.  `accessed` lists the packets whose `ptr` is read or
  written.

  * `PoolId.getAvailable_found`: on a pool with an available packet both search
    functions end, after at most one probe of each packet, with the first
    available one at or after the start, and leave the start right after it;
  * `getAvailable_pool`: `Pool.getAvailable`, on which the model of the rest of
    the program rests, is the same search by indices;
  * `packetPool_sound`: over any sequence of acquisitions and releases that
    acquires from no exhausted pool, no packet is held twice and no access is
    outside the pool.
-/
import SpecPriv.Lib.FreeSlots
import SpecPriv.Trans.Program

namespace SpecPriv.Trans

open FreeSlots Ring

/-- The pools of the workers, the pool of the commit process, and the memory
    they are in. -/
structure PacketPools where
  packetBegins : ℕ → ℕ
  packetEnds : ℕ → ℕ
  packetNexts : ℕ → ℕ
  commitProcessPacketBegin : ℕ
  commitProcessPacketEnd : ℕ
  commitProcessPacketNext : ℕ
  /-- the field `ptr` of the packet at an address -/
  ptr : ℕ → ℕ
  accessed : List ℕ

namespace PacketPools

/-- Record accesses, latest first. -/
def access (ps : List ℕ) (st : PacketPools) : PacketPools :=
  { st with accessed := ps ++ st.accessed }

def isPacketAvailable (p : ℕ) (st : PacketPools) : Bool × PacketPools :=
  (st.ptr p = 0, st.access [p])

/-- `p->ptr = v`. -/
def store (p v : ℕ) (st : PacketPools) : PacketPools :=
  { st with ptr := Function.update st.ptr p v }.access [p]

/-- The packet after `p`, in a pool that goes from `first` to `bound`. -/
def nextPacket (first bound p : ℕ) : ℕ :=
  if p + sizeofPacket ≥ bound then first else p + sizeofPacket

/-- The loop of the two functions below, with fuel for each probe. -/
def searchAvailable (first bound : ℕ) : ℕ → ℕ → PacketPools → Option (ℕ × PacketPools)
  | 0, _, _ => none
  | fuel + 1, next, st =>
    let (available, st) := isPacketAvailable next st
    if available then some (next, st)
    else searchAvailable first bound fuel (nextPacket first bound next) st

def getAvailablePacket (fuel wid : ℕ) (st : PacketPools) : Option (ℕ × PacketPools) := do
  let bound := st.packetEnds wid
  let (next, st) ← searchAvailable (st.packetBegins wid) bound fuel (st.packetNexts wid) st
  let after := nextPacket (st.packetBegins wid) bound next
  some (next, { st with packetNexts := Function.update st.packetNexts wid after })

def getAvailableCommitProcessPacket (fuel : ℕ) (st : PacketPools) : Option (ℕ × PacketPools) := do
  let bound := st.commitProcessPacketEnd
  let (next, st) ←
    searchAvailable st.commitProcessPacketBegin bound fuel st.commitProcessPacketNext st
  let after := nextPacket st.commitProcessPacketBegin bound next
  some (next, { st with commitProcessPacketNext := after })

end PacketPools

/-! ## One pool -/

/-- The pools of `packet.c`. -/
inductive PoolId
  | worker (wid : ℕ)
  | commitProcess

namespace PoolId

def first (st : PacketPools) : PoolId → ℕ
  | worker wid => st.packetBegins wid
  | commitProcess => st.commitProcessPacketBegin

def bound (st : PacketPools) : PoolId → ℕ
  | worker wid => st.packetEnds wid
  | commitProcess => st.commitProcessPacketEnd

def next (st : PacketPools) : PoolId → ℕ
  | worker wid => st.packetNexts wid
  | commitProcess => st.commitProcessPacketNext

/-- The function that takes a packet from the pool. -/
def getAvailable (fuel : ℕ) (st : PacketPools) : PoolId → Option (ℕ × PacketPools)
  | worker wid => st.getAvailablePacket fuel wid
  | commitProcess => st.getAvailableCommitProcessPacket fuel

end PoolId

/-- The address of packet `i` of a pool. -/
def packetAt (first i : ℕ) : ℕ := first + sizeofPacket * i

/-- The pool has `cap` packets, and the search starts at packet `i`. -/
structure PoolId.Valid (id : PoolId) (cap i : ℕ) (st : PacketPools) : Prop where
  bound_eq : id.bound st = packetAt (id.first st) cap
  next_eq : id.next st = packetAt (id.first st) i
  lt : i < cap

/-- Packet `i` of the pool at `first` is available. -/
def available (st : PacketPools) (first i : ℕ) : Bool := st.ptr (packetAt first i) = 0

variable {st : PacketPools} {id : PoolId} {cap i k fuel first p v : ℕ}

/-! ## The search -/

theorem packetAt_inj : packetAt first i = packetAt first k ↔ i = k := by
  unfold packetAt sizeofPacket
  omega

theorem nextPacket_packetAt (i : ℕ) :
    PacketPools.nextPacket first (packetAt first cap) (packetAt first i) =
      packetAt first (FreeSlots.succ cap i) := by
  unfold PacketPools.nextPacket packetAt sizeofPacket FreeSlots.succ
  split_ifs <;> omega

/-- The packets that a search probes, latest first. -/
def probed (cap first : ℕ) : ℕ → ℕ → List ℕ
  | 0, _ => []
  | n + 1, i => probed cap first n (FreeSlots.succ cap i) ++ [packetAt first i]

theorem probed_length (n i : ℕ) : (probed cap first n i).length = n := by
  induction n generalizing i with
  | zero => rfl
  | succ n ih => simp [probed, ih]

/-- The address of a packet of the pool. -/
def InPool (cap first p : ℕ) : Prop := ∃ i < cap, p = packetAt first i

theorem inPool_of_mem_probed {n : ℕ} (hi : i < cap) (h : p ∈ probed cap first n i) :
    InPool cap first p := by
  induction n generalizing i with
  | zero => cases h
  | succ n ih =>
    rcases List.mem_append.1 h with h | h
    · exact ih (succ_lt hi) h
    · exact ⟨i, hi, List.mem_singleton.1 h⟩

theorem access_access (ps qs : List ℕ) : (st.access qs).access ps = st.access (ps ++ qs) := by
  simp [PacketPools.access]

/-- The search ends at the first available packet; it changes nothing, and
    accesses the packets that it probes. -/
theorem searchAvailable_eq (st : PacketPools) (hi : i < cap)
    (h : FirstFree (available st first) cap i k) (hfuel : k < fuel) :
    PacketPools.searchAvailable first (packetAt first cap) fuel (packetAt first i) st =
      some (packetAt first (slot cap i k), st.access (probed cap first (k + 1) i)) := by
  induction k generalizing i fuel st with
  | zero =>
    obtain ⟨fuel, rfl⟩ := Nat.exists_eq_add_of_lt hfuel
    have hfree : st.ptr (packetAt first i) = 0 := of_decide_eq_true (h.zero hi)
    rw [Nat.zero_add, PacketPools.searchAvailable]
    simp [PacketPools.isPacketAvailable, hfree, slot_zero hi, probed]
  | succ k ih =>
    obtain ⟨fuel, rfl⟩ := Nat.exists_eq_add_of_lt hfuel
    obtain ⟨hbusy, hrest⟩ := h.step hi
    have hptr : st.ptr (packetAt first i) ≠ 0 := of_decide_eq_false hbusy
    have hgo := ih (st.access [packetAt first i]) (succ_lt hi) hrest
      (show k < k + 1 + fuel by omega)
    have hslot : slot cap (FreeSlots.succ cap i) k = slot cap i (k + 1) := by
      rw [succ_eq hi, slot_slot, Nat.add_comm]
    rw [PacketPools.searchAvailable]
    simp only [PacketPools.isPacketAvailable, hptr, decide_false, Bool.false_eq_true, if_false,
      nextPacket_packetAt]
    rw [hgo, hslot, access_access]
    rfl

/-- A search changes nothing but the accesses. -/
theorem searchAvailable_access {bound next : ℕ} {st' : PacketPools}
    (h : PacketPools.searchAvailable first bound fuel next st = some (p, st')) :
    ∃ ps, st' = st.access ps := by
  induction fuel generalizing next st with
  | zero => cases h
  | succ fuel ih =>
    by_cases hfree : st.ptr next = 0
    · simp only [PacketPools.searchAvailable, PacketPools.isPacketAvailable, hfree, decide_true,
        if_true] at h
      exact ⟨[next], (Prod.mk.inj (Option.some.inj h)).2.symm⟩
    · simp only [PacketPools.searchAvailable, PacketPools.isPacketAvailable, hfree, decide_false,
        Bool.false_eq_true, if_false] at h
      obtain ⟨ps, hps⟩ := ih h
      exact ⟨ps ++ [next], by rw [hps, access_access]⟩

/-- Move the start of a pool's search. -/
def PoolId.moveTo (next : ℕ) (st : PacketPools) : PoolId → PacketPools
  | worker wid => { st with packetNexts := Function.update st.packetNexts wid next }
  | commitProcess => { st with commitProcessPacketNext := next }

theorem PoolId.getAvailable_eq (id : PoolId) : id.getAvailable fuel st =
    (PacketPools.searchAvailable (id.first st) (id.bound st) fuel (id.next st) st).bind fun r =>
      some (r.1, id.moveTo (PacketPools.nextPacket (id.first r.2) (id.bound st) r.1) r.2) := by
  cases id <;> rfl

section Fields

variable (id) (n : ℕ) (ps : List ℕ) (p v : ℕ)

@[simp] theorem PoolId.first_access : id.first (st.access ps) = id.first st := by cases id <;> rfl

@[simp] theorem PoolId.bound_access : id.bound (st.access ps) = id.bound st := by cases id <;> rfl

@[simp] theorem PoolId.next_access : id.next (st.access ps) = id.next st := by cases id <;> rfl

@[simp] theorem PoolId.first_moveTo : id.first (id.moveTo n st) = id.first st := by
  cases id <;> rfl

@[simp] theorem PoolId.bound_moveTo : id.bound (id.moveTo n st) = id.bound st := by
  cases id <;> rfl

@[simp] theorem PoolId.next_moveTo : id.next (id.moveTo n st) = n := by
  cases id with
  | worker wid => exact Function.update_self ..
  | commitProcess => rfl

@[simp] theorem PoolId.ptr_moveTo : (id.moveTo n st).ptr = st.ptr := by cases id <;> rfl

@[simp] theorem PoolId.accessed_moveTo : (id.moveTo n st).accessed = st.accessed := by
  cases id <;> rfl

@[simp] theorem PoolId.first_store : id.first (st.store p v) = id.first st := by cases id <;> rfl

@[simp] theorem PoolId.bound_store : id.bound (st.store p v) = id.bound st := by cases id <;> rfl

@[simp] theorem PoolId.next_store : id.next (st.store p v) = id.next st := by cases id <;> rfl

@[simp] theorem PacketPools.ptr_access : (st.access ps).ptr = st.ptr := rfl

@[simp] theorem PacketPools.accessed_access : (st.access ps).accessed = ps ++ st.accessed := rfl

@[simp] theorem PacketPools.ptr_store : (st.store p v).ptr = Function.update st.ptr p v := rfl

@[simp] theorem PacketPools.accessed_store : (st.store p v).accessed = p :: st.accessed := rfl

end Fields

/-- What the two functions do: the first available packet is found with at
    most one probe of each packet, and the start is moved right after it. -/
theorem PoolId.getAvailable_found (h : id.Valid cap i st)
    (hk : FirstFree (available st (id.first st)) cap i k) :
    id.getAvailable cap st = some (packetAt (id.first st) (slot cap i k),
      id.moveTo (packetAt (id.first st) (slot cap i (k + 1)))
        (st.access (probed cap (id.first st) (k + 1) i))) := by
  have hsearch := searchAvailable_eq st h.lt hk hk.lt
  rw [id.getAvailable_eq, h.bound_eq, h.next_eq, hsearch, Option.bind_some, id.first_access,
    nextPacket_packetAt, succ_slot h.lt]

theorem PoolId.Valid.store (h : id.Valid cap i st) (p v : ℕ) :
    id.Valid cap i (st.store p v) where
  bound_eq := by rw [id.bound_store, id.first_store, h.bound_eq]
  next_eq := by rw [id.next_store, id.first_store, h.next_eq]
  lt := h.lt

theorem PoolId.Valid.moveTo (h : id.Valid cap i st) (hk : k < cap) (ps : List ℕ) :
    id.Valid cap k (id.moveTo (packetAt (id.first st) k) (st.access ps)) where
  bound_eq := by simp [h.bound_eq]
  next_eq := by simp
  lt := hk

/-! ## Runs -/

/-- What the processes do with a pool. -/
inductive PoolOp
  /-- acquire a packet and store a pointer in it -/
  | acquire (v : ℕ)
  /-- store null -/
  | release (p : ℕ)

/-- The pools, and the packets that are acquired and not released. -/
structure Session where
  pools : PacketPools
  held : List ℕ

def PoolOp.exec (id : PoolId) (cap : ℕ) (s : Session) : PoolOp → Option Session
  | acquire v => do
    let (p, st) ← id.getAvailable cap s.pools
    some ⟨st.store p v, p :: s.held⟩
  | release p => some ⟨s.pools.store p 0, s.held.filter (· ≠ p)⟩

/-- No acquisition from an exhausted pool, and no release outside the pool;
    what is stored in an acquired packet is not null. -/
def PoolOp.Allowed (id : PoolId) (cap : ℕ) (s : Session) : PoolOp → Prop
  | acquire v => v ≠ 0 ∧ ∃ j < cap, available s.pools (id.first s.pools) j = true
  | release p => InPool cap (id.first s.pools) p

/-- A sequence of operations each of which is allowed when it comes. -/
def AllowedRun (id : PoolId) (cap : ℕ) : List PoolOp → Session → Prop
  | [], _ => True
  | op :: ops, s => op.Allowed id cap s ∧ ∀ s', op.exec id cap s = some s' →
    AllowedRun id cap ops s'

/-- The invariant of the runs: what is held is busy and in the pool. -/
structure Session.Sound (id : PoolId) (cap first : ℕ) (s : Session) : Prop where
  valid : ∃ i, id.Valid cap i s.pools
  first_eq : id.first s.pools = first
  nodup : s.held.Nodup
  busy : ∀ p ∈ s.held, s.pools.ptr p ≠ 0
  inPool : ∀ p ∈ s.held, InPool cap first p
  accessed : ∀ p ∈ s.pools.accessed, InPool cap first p

variable {s : Session}

theorem PoolOp.exec_acquire {st : PacketPools} (h : id.getAvailable cap s.pools = some (p, st)) :
    (PoolOp.acquire v).exec id cap s = some ⟨st.store p v, p :: s.held⟩ := by
  rw [PoolOp.exec, h]
  rfl

/-- A packet that is found available is not held. -/
theorem Session.Sound.acquire (h : s.Sound id cap first) (hv : v ≠ 0)
    (hfree : ∃ j < cap, available s.pools (id.first s.pools) j = true) :
    ∃ s', (PoolOp.acquire v).exec id cap s = some s' ∧ s'.Sound id cap first := by
  obtain ⟨i, hvalid⟩ := h.valid
  obtain rfl := h.first_eq
  obtain ⟨k, hk⟩ := exists_firstFree hvalid.lt hfree
  have hslot : InPool cap (id.first s.pools) (packetAt (id.first s.pools) (slot cap i k)) :=
    ⟨_, slot_lt hvalid.lt.pos, rfl⟩
  have hnull : s.pools.ptr (packetAt (id.first s.pools) (slot cap i k)) = 0 :=
    of_decide_eq_true hk.free_slot
  have hnew : packetAt (id.first s.pools) (slot cap i k) ∉ s.held := by
    intro hmem
    exact h.busy _ hmem hnull
  have hexec := PoolOp.exec_acquire (PoolId.getAvailable_found hvalid hk) (v := v)
  refine ⟨_, hexec, ⟨_, (hvalid.moveTo (slot_lt hvalid.lt.pos) _).store _ v⟩, ?_, ?_, ?_, ?_, ?_⟩
  · simp
  · exact List.nodup_cons.2 ⟨hnew, h.nodup⟩
  · intro p hp
    rcases List.mem_cons.1 hp with rfl | hp
    · simpa using hv
    · have hne : p ≠ packetAt (id.first s.pools) (slot cap i k) := by
        rintro rfl
        exact hnew hp
      simpa [hne] using h.busy p hp
  · intro p hp
    rcases List.mem_cons.1 hp with rfl | hp
    · exact hslot
    · exact h.inPool p hp
  · intro p hp
    simp only [PacketPools.accessed_store, PoolId.accessed_moveTo, PacketPools.accessed_access,
      List.mem_cons, List.mem_append] at hp
    rcases hp with rfl | hp | hp
    · exact hslot
    · exact inPool_of_mem_probed hvalid.lt hp
    · exact h.accessed p hp

theorem Session.Sound.release (h : s.Sound id cap first) (hp : InPool cap first p) :
    ∃ s', (PoolOp.release p).exec id cap s = some s' ∧ s'.Sound id cap first := by
  obtain ⟨i, hvalid⟩ := h.valid
  refine ⟨_, rfl, ⟨i, hvalid.store p 0⟩, ?_, h.nodup.filter _, ?_, ?_, ?_⟩
  · simp [h.first_eq]
  · intro q hq
    obtain ⟨hheld, hne⟩ := List.mem_filter.1 hq
    have hne' : q ≠ p := of_decide_eq_true hne
    simpa [hne'] using h.busy q hheld
  · intro q hq
    exact h.inPool q (List.mem_filter.1 hq).1
  · intro q hq
    rcases List.mem_cons.1 hq with rfl | hq
    · exact hp
    · exact h.accessed q hq

/-- Every allowed operation returns and keeps the invariant. -/
theorem Session.Sound.step (h : s.Sound id cap first) {op : PoolOp} (ha : op.Allowed id cap s) :
    ∃ s', op.exec id cap s = some s' ∧ s'.Sound id cap first := by
  cases op with
  | acquire v => exact h.acquire ha.1 ha.2
  | release p =>
    have hp : InPool cap (id.first s.pools) p := ha
    rw [h.first_eq] at hp
    exact h.release hp

theorem Session.Sound.run (ops : List PoolOp) (h : s.Sound id cap first)
    (ha : AllowedRun id cap ops s) :
    ∃ s', ops.foldlM (PoolOp.exec id cap) s = some s' ∧ s'.Sound id cap first := by
  induction ops generalizing s with
  | nil => exact ⟨s, rfl, h⟩
  | cons op ops ih =>
    obtain ⟨s', hs', hsound⟩ := h.step ha.1
    obtain ⟨s'', hs'', hsound'⟩ := ih hsound (ha.2 s' hs')
    refine ⟨s'', ?_, hsound'⟩
    rw [List.foldlM_cons, hs']
    exact hs''

/-- **The search is sound, complete and rotating**, for both functions and
    every pool of `cap` packets: unless all packets are busy it ends within
    `cap` probes with the first available packet at or cyclically after the
    start, and moves the start to the packet after it.  Hence no run of
    acquisitions and releases that spares an exhausted pool holds a packet
    twice or accesses anything outside the pool. -/
theorem packetPool_sound (id : PoolId) (cap i : ℕ) (st : PacketPools) (h : id.Valid cap i st)
    (hst : st.accessed = []) :
    ((∃ j < cap, available st (id.first st) j = true) → ∃ k st',
      FirstFree (available st (id.first st)) cap i k ∧
      id.getAvailable cap st = some (packetAt (id.first st) (slot cap i k), st') ∧
      id.Valid cap (slot cap i (k + 1)) st' ∧ st'.ptr = st.ptr ∧ st'.accessed.length = k + 1) ∧
    (∀ ops, AllowedRun id cap ops ⟨st, []⟩ → ∃ s,
      ops.foldlM (PoolOp.exec id cap) ⟨st, []⟩ = some s ∧ s.held.Nodup ∧
      (∀ p ∈ s.held, s.pools.ptr p ≠ 0) ∧
      ∀ p ∈ s.pools.accessed, InPool cap (id.first st) p) := by
  constructor
  · intro hfree
    obtain ⟨k, hk⟩ := exists_firstFree h.lt hfree
    refine ⟨k, _, hk, PoolId.getAvailable_found h hk, h.moveTo (slot_lt h.lt.pos) _, ?_, ?_⟩
    · simp
    · simp [hst, probed_length]
  · intro ops hops
    have hsound : Session.Sound id cap (id.first st) ⟨st, []⟩ := by
      refine ⟨⟨i, h⟩, rfl, List.nodup_nil, ?_, ?_, ?_⟩
      · simp
      · simp
      · simp [hst]
    obtain ⟨s, hs, hsound'⟩ := hsound.run ops hops
    exact ⟨s, hs, hsound'.nodup, hsound'.busy, hsound'.accessed⟩

/-- Two packets for the commit process at `0x1000`, the first one busy. -/
def PacketPools.two : PacketPools where
  packetBegins _ := 0
  packetEnds _ := 0
  packetNexts _ := 0
  commitProcessPacketBegin := 0x1000
  commitProcessPacketEnd := 0x1040
  commitProcessPacketNext := 0x1000
  ptr p := if p = 0x1000 then 8 else 0
  accessed := []

theorem PacketPools.two_valid : PoolId.commitProcess.Valid 2 0 PacketPools.two where
  bound_eq := rfl
  next_eq := rfl
  lt := Nat.two_pos

theorem packetPool_sound_two :
    (∃ k st', FirstFree (available PacketPools.two 0x1000) 2 0 k ∧
      PoolId.commitProcess.getAvailable 2 PacketPools.two =
        some (packetAt 0x1000 (slot 2 0 k), st') ∧
      PoolId.commitProcess.Valid 2 (slot 2 0 (k + 1)) st' ∧ st'.ptr = PacketPools.two.ptr ∧
      st'.accessed.length = k + 1) ∧
    (∀ ops, AllowedRun .commitProcess 2 ops ⟨PacketPools.two, []⟩ → ∃ s,
      ops.foldlM (PoolOp.exec .commitProcess 2) ⟨PacketPools.two, []⟩ = some s ∧ s.held.Nodup ∧
      (∀ p ∈ s.held, s.pools.ptr p ≠ 0) ∧
      ∀ p ∈ s.pools.accessed, InPool 2 0x1000 p) := by
  have h := packetPool_sound .commitProcess 2 0 PacketPools.two PacketPools.two_valid rfl
  exact ⟨h.1 ⟨1, by decide, by decide⟩, h.2⟩

example : (PoolId.commitProcess.getAvailable 2 PacketPools.two).map Prod.fst = some 0x1020 := by
  decide

/-! ## The search by indices -/

/-- `Pool.search` is the search of a ring of `PACKET_POOL_SIZE` slots. -/
theorem Pool.search_eq (ptr : ℕ → Cell64) (fuel i : ℕ) :
    Pool.search ptr fuel i = FreeSlots.search (fun j => ptr j = 0#64) packetPoolSize fuel i := by
  induction fuel generalizing i with
  | zero => rfl
  | succ fuel ih =>
    rw [Pool.search, FreeSlots.search, ih]
    simp only [decide_eq_true_eq]
    rfl

/-- The function of the rest of the program takes the first available packet,
    and moves the start right after it. -/
theorem Pool.getAvailable_found {pool : Pool} (hi : pool.next < packetPoolSize)
    (hk : FirstFree (fun j => pool.ptr j = 0#64) packetPoolSize pool.next k) (hfuel : k < fuel) :
    pool.getAvailable fuel = some (slot packetPoolSize pool.next k,
      { pool with next := slot packetPoolSize pool.next (k + 1) }) := by
  have hsucc (i : ℕ) : Pool.succ i = FreeSlots.succ packetPoolSize i := rfl
  rw [Pool.getAvailable, Pool.search_eq, FreeSlots.search_eq hi hk hfuel]
  simp only [Option.bind_eq_bind, Option.bind_some, hsucc, succ_slot hi]

/-- The search by pointers ends where the search of the ring does. -/
theorem searchAvailable_search (fuel i : ℕ) (st : PacketPools) :
    Option.Rel (fun r j => r.1 = packetAt first j ∧ ∃ ps, r.2 = st.access ps)
      (PacketPools.searchAvailable first (packetAt first cap) fuel (packetAt first i) st)
      (FreeSlots.search (available st first) cap fuel i) := by
  induction fuel generalizing i st with
  | zero => exact .none
  | succ fuel ih =>
    rw [PacketPools.searchAvailable, FreeSlots.search]
    by_cases hfree : st.ptr (packetAt first i) = 0
    · simp only [PacketPools.isPacketAvailable, available, hfree, decide_true, if_true]
      exact .some ⟨rfl, _, rfl⟩
    · have hrest := ih (FreeSlots.succ cap i) (st.access [packetAt first i])
      have hsame : available (st.access [packetAt first i]) first = available st first := rfl
      have hbusy : available st first i = false := decide_eq_false hfree
      rw [hsame] at hrest
      simp only [PacketPools.isPacketAvailable, hfree, hbusy, decide_false, Bool.false_eq_true,
        if_false, nextPacket_packetAt]
      generalize PacketPools.searchAvailable _ _ _ _ _ = r, FreeSlots.search _ _ _ _ = j
        at hrest ⊢
      cases hrest with
      | none => exact .none
      | some h =>
        obtain ⟨hp, ps, hst⟩ := h
        exact .some ⟨hp, ps ++ [packetAt first i], by rw [hst, access_access]⟩

/-- `Pool.getAvailable` is the search in a pool of `PACKET_POOL_SIZE`
    packets, by indices: the same packet, and the same start afterwards. -/
theorem getAvailable_pool (h : id.Valid packetPoolSize i st) {ptr : ℕ → Cell64}
    (hptr : ∀ j, ptr j = 0#64 ↔ st.ptr (packetAt (id.first st) j) = 0) (fuel : ℕ) :
    (id.getAvailable fuel st).map (fun r => (r.1, id.next r.2)) =
      ((⟨i, ptr⟩ : Pool).getAvailable fuel).map fun r =>
        (packetAt (id.first st) r.1, packetAt (id.first st) r.2.next) := by
  have hfree : (fun j => decide (ptr j = 0#64)) = available st (id.first st) := by
    funext j
    simp only [available, hptr]
  have hsucc (i : ℕ) : Pool.succ i = FreeSlots.succ packetPoolSize i := rfl
  have hsearch : Option.Rel _ _ (FreeSlots.search (available st (id.first st)) packetPoolSize
    fuel i) := searchAvailable_search fuel i st
  rw [id.getAvailable_eq, h.bound_eq, h.next_eq, Pool.getAvailable, Pool.search_eq, hfree]
  generalize PacketPools.searchAvailable _ _ _ _ _ = r, FreeSlots.search _ _ _ _ = j at hsearch ⊢
  cases hsearch with
  | none => rfl
  | some h =>
    obtain ⟨hp, ps, hst⟩ := h
    simp [hp, hst, nextPacket_packetAt, hsucc]

end SpecPriv.Trans
