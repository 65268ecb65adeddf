/-
  The build with `PROFILE`.

  There `forward_ro_page`, `forward_pair` and `end_iter` count, besides what
  they do, bytes of metadata and bandwidth, and `end_iter` dumps how many pages
  an iteration touched and wrote.  Times are left out.

  * `profile_erases`: over any run, a worker of this build does what a worker
    of the plain build does;
  * `profile_counts`: the six counters of bytes and bandwidth are functions of
    the calls that were made;
  * `dump_exact`: what is dumped for an iteration agrees with the read-only
    chunks that were sent for it.
-/
import Mathlib.Algebra.Order.BigOperators.Group.List
import Mathlib.Data.List.Enum
import Mathlib.Tactic.Ring
import SpecPriv.Orig.Frames
import SpecPriv.Orig.Scans
import SpecPriv.Orig.Walk

namespace SpecPriv

open Loop

/-- The counters of a worker. -/
structure Profile where
  mTotal : ℕ
  eTotal : ℕ
  pTotal : ℕ
  mOutgoingBw : ℕ
  eOutgoingBw : ℕ
  roOutgoingBw : ℕ
  heapPages : ℕ
  outgoingHeaps : ℕ

def Profile.zero : Profile := ⟨0, 0, 0, 0, 0, 0, 0, 0⟩

/-- The number of packets that the `n`-th call returns, and the sizes of
    `packet` and `packet_chunk`. -/
structure Packets where
  packets : ℕ → ℕ
  sizeofPacket : ℕ
  sizeofPacketChunk : ℕ

/-- `PROFDUMP` of an iteration. -/
structure Dump where
  iter : ℕ
  touched : ℕ
  written : ℕ

/-- A worker, its counters, what it dumped, and what `to_try_commit` returned
    for its BOI packets. -/
structure ProfWorker (am : AddressMap) extends Worker am where
  profile : Profile
  dumps : List Dump
  boi : List ℕ

/-- What the loops of `end_iter` work on. -/
structure ProfSender extends Sender where
  profile : Profile
  tp : ℕ
  wp : ℕ

variable {am : AddressMap}

namespace Prof

/-- One round of `count_bytes`. -/
def countByte (mem : Memory) (page i : ℕ) (c : ℕ × ℕ) : ℕ × ℕ :=
  (if mem (page + i) ≠ 0#8 then c.1 + 1 else c.1,
    if mem (page + i) &&& 0x02#8 ≠ 0#8 then c.2 + 1 else c.2)

def countBytes (mem : Memory) (page : ℕ) (c : ℕ × ℕ) : ℕ × ℕ :=
  forLoop 0 pageSize 1 (countByte mem page) c

/-- `forward_page`, with the number that it returns. -/
def forwardPage (K : Packets) (wid : Wid) (iter : ℕ) (src : Source) (check : Check) (o : Outbox) :
    Outbox × ℕ :=
  (SpecPriv.forwardPage wid iter src check o, K.packets o.log.length)

/-- `forward_packet`, with the number that it returns. -/
def forwardPacket (K : Packets) (wid : Wid) (iter : ℕ) (ptr : ℕ) (value : BitVec 64) (size : ℕ)
    (check : Check) (o : Outbox) : Outbox × ℕ :=
  (SpecPriv.forwardPacket wid iter ptr value size check o, K.packets o.log.length)

def forwardRoPage (K : Packets) (wid : Wid) (iter : ℕ) (s : Outbox × Profile) : Outbox × Profile :=
  let o := s.1
  let pr := s.2
  if o.roPageBuffer.index ≠ 0 then
    let r := forwardPage K wid iter (.roPageBuffer o.roPageBuffer.data) .roPage o
    let size := r.2 * K.sizeofPacket + K.sizeofPacketChunk
    ({ r.1 with roPageBuffer := { r.1.roPageBuffer with data := Vector.replicate _ 0 } },
      { pr with
        mOutgoingBw := pr.mOutgoingBw + size
        roOutgoingBw := pr.roOutgoingBw + size })
  else s

def makeRoom (K : Packets) (wid : Wid) (iter : ℕ) (s : Outbox × Profile) : Outbox × Profile :=
  if s.1.roPageBuffer.index = roEntryBufferSize then
    let s := forwardRoPage K wid iter s
    ({ s.1 with roPageBuffer := { s.1.roPageBuffer with index := 0 } }, s.2)
  else s

def bufferRoPage (K : Packets) (wid : Wid) (iter : ℕ) (page : ℕ) (s : Outbox × Profile) :
    Outbox × Profile :=
  let s := makeRoom K wid iter s
  let index := s.1.roPageBuffer.index
  ({ s.1 with roPageBuffer := ⟨s.1.roPageBuffer.data.setIfInBounds index page, index + 1⟩ }, s.2)

/-- One round of the packet loop, for the words at offset `i`. -/
def forwardWord (K : Packets) (wid : Wid) (iter : ℕ) (m : Memory) (mem shadow : ℕ) (check : Check)
    (i : ℕ) (s : Outbox × Profile) : Outbox × Profile :=
  let pr := s.2
  let sv := load64 m (shadow + i)
  if sv ≠ 0#64 then
    let r := forwardPacket K wid iter (mem + i) (load64 m (mem + i)) 8 check s.1
    let r' := forwardPacket K wid iter 0 sv 8 check r.1
    let packets := r.2 + r'.2
    (r'.1,
      { pr with
        mOutgoingBw := pr.mOutgoingBw + packets * K.sizeofPacket
        eOutgoingBw := pr.eOutgoingBw + packets * K.sizeofPacket })
  else s

def forwardPair (K : Packets) (nonzero : ℕ) (wid : Wid) (iter : ℕ) (mem shadow : ℕ)
    (check : Check) (s : Sender) (pr : Profile) : Sender × Profile :=
  if nonzero > 8 then
    let c := countBytes s.mem shadow (0, 0)
    let r := forwardPage K wid iter (.page mem (snapshot s.mem mem)) check s.out
    let r' := forwardPage K wid iter (.page shadow (snapshot s.mem shadow)) check r.1
    let packets := r.2 + r'.2
    (⟨setZeroPage s.mem shadow, r'.1⟩,
      { pr with
        mTotal := pr.mTotal + c.1 * 2
        eTotal := pr.eTotal + c.2 * 2
        pTotal := pr.pTotal + pageSize * 2
        mOutgoingBw := pr.mOutgoingBw + (c.1 * 2 + packets * K.sizeofPacket)
        eOutgoingBw := pr.eOutgoingBw + (c.2 * 2 + packets * K.sizeofPacket) })
  else if nonzero ≠ 0 then
    let r := forLoop 0 pageSize 8 (forwardWord K wid iter s.mem mem shadow check) (s.out, pr)
    (⟨setZeroPage s.mem shadow, r.1⟩, r.2)
  else
    let r := bufferRoPage K wid iter mem (s.out, pr)
    (⟨setZeroPage s.mem shadow, r.1⟩, r.2)

/-- The body of the loops over globals and stacks. -/
def forwardShadow (K : Packets) (wid : Wid) (iter : ℕ) (s : ProfSender) (shadow : am.Shadow) :
    ProfSender :=
  let a := shadow.1.addr
  if touched s.mem a then
    let m := clearTouched s.mem a
    if isZeroPage m a then { s with mem := m }
    else
      let wp := if ¬ isRoPage a m then s.wp + 1 else s.wp
      let r := clearRead a m
      let p := forwardPair K r.2 wid iter (am.getOriginalOf shadow).addr a .required ⟨r.1, s.out⟩
        s.profile
      ⟨p.1, p.2, s.tp + 1, wp⟩
  else s

/-- The body of the loop over heaps. -/
def forwardHeap (K : Packets) (wid : Wid) (iter : ℕ) (s : ProfSender) (shadow : am.Shadow) :
    ProfSender :=
  let s := { s with profile := { s.profile with heapPages := s.profile.heapPages + 1 } }
  let a := shadow.1.addr
  if touched s.mem a then
    let s := { s with profile := { s.profile with outgoingHeaps := s.profile.outgoingHeaps + 1 } }
    let m := clearTouched s.mem a
    if isZeroPage m a then { s with mem := m }
    else
      let r := clearRead a m
      let wp := if r.2 ≠ 0 then s.wp + 1 else s.wp
      let p := forwardPair K r.2 wid iter (am.getOriginalOf shadow).addr a .required ⟨r.1, s.out⟩
        s.profile
      ⟨p.1, p.2, s.tp + 1, wp⟩
  else s

/-- The three loops of `end_iter` and the flush after them. -/
def forwardPages (K : Packets) (wid : Wid) (iter : ℕ)
    (shadowGlobals shadowStacks shadowHeaps : List am.Shadow) (s : ProfSender) : ProfSender :=
  let s := shadowGlobals.foldl (forwardShadow K wid iter) s
  let s := shadowStacks.foldl (forwardShadow K wid iter) s
  let s := shadowHeaps.foldl (forwardHeap K wid iter) s
  let r := forwardRoPage K wid iter (s.out, s.profile)
  { s with out := r.1, profile := r.2 }

def endIter (K : Packets) (rt : Runtime) (wid : Wid) (w : ProfWorker am) : ProfWorker am :=
  let iter := w.currentIter
  let w :=
    if runIteration rt.layout wid iter then
      let mem := rt.updateShadowForLoopInvariants w.mem
      let mem := rt.updateShadowForLinearPredictedValues mem
      let buf := w.verMallocBuffer
      let out := w.out.call
        (.broadcastMallocChunk wid buf.elem (buf.index * sizeofVerMallocInstance))
      let s := forwardPages K wid iter w.shadowGlobals w.shadowStacks w.shadowHeaps
        ⟨⟨mem, out⟩, w.profile, 0, 0⟩
      { w with
        toSender := s.toSender
        verMallocBuffer := ⟨fun _ => ⟨0, 0, 0⟩, 0⟩
        profile := s.profile
        dumps := w.dumps ++ [⟨iter, s.tp, s.wp⟩] }
    else w
  let w :=
    if eoiTest rt.layout wid iter then
      let packets := K.packets w.out.log.length
      { w with
        out := w.out.call (.broadcastEoi wid 0xDEADBEEF 0 0)
        profile := { w.profile with
          mOutgoingBw := w.profile.mOutgoingBw + K.sizeofPacket * packets } }
    else w
  { w with currentIter := iter + 1 }

/-- `begin_iter` counts the BOI packet, for which `to_try_commit` returned
    `n`. -/
def sendBoi (K : Packets) (n : ℕ) (w : ProfWorker am) : ProfWorker am :=
  { w with
    profile := { w.profile with mOutgoingBw := w.profile.mOutgoingBw + n * K.sizeofPacket }
    boi := w.boi ++ [n] }

/-! ## The plain build -/

variable {K : Packets} {rt : Runtime} {wid : Wid} {iter mem shadow : ℕ} {check : Check}

theorem forwardRoPage_fst (s : Outbox × Profile) :
    (forwardRoPage K wid iter s).1 = SpecPriv.forwardRoPage wid iter s.1 := by
  unfold forwardRoPage SpecPriv.forwardRoPage
  dsimp only
  split_ifs <;> rfl

theorem bufferRoPage_fst (page : ℕ) (s : Outbox × Profile) :
    (bufferRoPage K wid iter page s).1 = SpecPriv.bufferRoPage wid iter page s.1 := by
  have hroom : (makeRoom K wid iter s).1 = SpecPriv.makeRoom wid iter s.1 := by
    unfold makeRoom SpecPriv.makeRoom
    dsimp only
    split_ifs
    · simp only [forwardRoPage_fst]
    · rfl
  simp only [bufferRoPage, SpecPriv.bufferRoPage, hroom]

theorem forwardWord_fst (m : Memory) (i : ℕ) (s : Outbox × Profile) :
    (forwardWord K wid iter m mem shadow check i s).1 =
      SpecPriv.forwardWord wid iter m mem shadow check i s.1 := by
  unfold forwardWord SpecPriv.forwardWord
  dsimp only
  split_ifs <;> rfl

theorem forwardPair_fst (nonzero : ℕ) (s : Sender) (pr : Profile) :
    (forwardPair K nonzero wid iter mem shadow check s pr).1 =
      SpecPriv.forwardPair nonzero wid iter mem shadow check s := by
  unfold forwardPair SpecPriv.forwardPair
  split_ifs
  · rfl
  · have hloop : (forLoop 0 pageSize 8 (forwardWord K wid iter s.mem mem shadow check)
        (s.out, pr)).1 =
          forLoop 0 pageSize 8 (SpecPriv.forwardWord wid iter s.mem mem shadow check) s.out :=
      forLoop_map Prod.fst (forwardWord_fst s.mem) 0 pageSize 8 (s.out, pr)
    simp only [hloop]
  · simp only [bufferRoPage_fst]

theorem forwardShadow_toSender (s : ProfSender) (t : am.Shadow) :
    (forwardShadow K wid iter s t).toSender = SpecPriv.forwardShadow wid iter s.toSender t := by
  unfold forwardShadow SpecPriv.forwardShadow
  dsimp only
  split_ifs <;> simp only [forwardPair_fst]

theorem forwardHeap_toSender (s : ProfSender) (t : am.Shadow) :
    (forwardHeap K wid iter s t).toSender = SpecPriv.forwardShadow wid iter s.toSender t := by
  unfold forwardHeap SpecPriv.forwardShadow
  dsimp only
  split_ifs <;> simp only [forwardPair_fst]

theorem forwardPages_toSender (shadowGlobals shadowStacks shadowHeaps : List am.Shadow)
    (s : ProfSender) :
    (forwardPages K wid iter shadowGlobals shadowStacks shadowHeaps s).toSender =
      SpecPriv.forwardPages wid iter shadowGlobals shadowStacks shadowHeaps s.toSender := by
  have hshadows : ∀ (l : List am.Shadow) (s : ProfSender),
      (l.foldl (forwardShadow K wid iter) s).toSender = forwardShadows wid iter l s.toSender := by
    intro l s
    exact (List.foldl_hom _ fun s t => (forwardShadow_toSender s t).symm).symm
  have hheaps : ∀ (l : List am.Shadow) (s : ProfSender),
      (l.foldl (forwardHeap K wid iter) s).toSender = forwardShadows wid iter l s.toSender := by
    intro l s
    exact (List.foldl_hom _ fun s t => (forwardHeap_toSender s t).symm).symm
  have hloops : (shadowHeaps.foldl (forwardHeap K wid iter)
      (shadowStacks.foldl (forwardShadow K wid iter)
        (shadowGlobals.foldl (forwardShadow K wid iter) s))).toSender =
      forwardShadows wid iter shadowHeaps (forwardShadows wid iter shadowStacks
        (forwardShadows wid iter shadowGlobals s.toSender)) := by
    rw [hheaps, hshadows, hshadows]
  unfold SpecPriv.forwardPages
  dsimp only
  rw [← hloops]
  simp only [forwardPages, forwardRoPage_fst]

theorem endIter_toWorker (w : ProfWorker am) :
    (endIter K rt wid w).toWorker = SpecPriv.endIter rt wid w.toWorker := by
  by_cases hrun : runIteration rt.layout wid w.currentIter <;>
    by_cases heoi : eoiTest rt.layout wid w.currentIter <;>
    simp [endIter, SpecPriv.endIter, hrun, heoi, forwardPages_toSender]

end Prof

/-! ## Runs -/

open Relation

/-- The steps of a worker.  The body of the loop sends nothing. -/
inductive Worker.Step (rt : Runtime) (wid : Wid) : Worker am → Worker am → Prop
  | body (w w' : Worker am) (hout : w'.out = w.out) (hiter : w'.currentIter = w.currentIter) :
      Step rt wid w w'
  | endIter (w : Worker am) : Step rt wid w (endIter rt wid w)

/-- The steps of a worker of the build with `PROFILE`. -/
inductive ProfWorker.Step (K : Packets) (rt : Runtime) (wid : Wid) :
    ProfWorker am → ProfWorker am → Prop
  | body (w : ProfWorker am) (w' : Worker am) (hout : w'.out = w.out)
      (hiter : w'.currentIter = w.currentIter) : Step K rt wid w { w with toWorker := w' }
  | boi (w : ProfWorker am) (n : ℕ) (h : w.currentIter ≠ 0 ∧ rt.layout.getMyStage wid = 0) :
      Step K rt wid w (Prof.sendBoi K n w)
  | endIter (w : ProfWorker am) : Step K rt wid w (Prof.endIter K rt wid w)

variable {K : Packets} {rt : Runtime} {wid : Wid} {iter mem shadow : ℕ} {check : Check}
  {log : List Call} {boi : List ℕ} {pr : Profile} {w w' : ProfWorker am}

/-- **The counting changes nothing.**  What a worker of the build with `PROFILE`
    does over a run, memory, read-only buffer and calls, a worker of the plain
    build does, and the other way round. -/
theorem profile_erases (K : Packets) (rt : Runtime) (wid : Wid) (w : ProfWorker am) :
    (∀ w', ReflTransGen (ProfWorker.Step K rt wid) w w' →
      ReflTransGen (Worker.Step rt wid) w.toWorker w'.toWorker) ∧
    (∀ v, ReflTransGen (Worker.Step rt wid) w.toWorker v →
      ∃ w', w'.toWorker = v ∧ ReflTransGen (ProfWorker.Step K rt wid) w w') := by
  refine ⟨?_, ?_⟩
  · intro w' h
    induction h with
    | refl => exact .refl
    | tail _ hstep ih =>
      cases hstep with
      | body w' hout hiter => exact ih.tail (.body _ w' hout hiter)
      | boi n h => exact ih
      | endIter =>
        rw [Prof.endIter_toWorker]
        exact ih.tail (.endIter _)
  · intro v h
    induction h with
    | refl => exact ⟨w, rfl, .refl⟩
    | tail _ hstep ih =>
      obtain ⟨w', rfl, hrun⟩ := ih
      cases hstep with
      | body _ hout hiter => exact ⟨_, rfl, hrun.tail (.body w' _ hout hiter)⟩
      | endIter => exact ⟨_, Prof.endIter_toWorker w', hrun.tail (.endIter w')⟩

/-! ## What the counters count -/

def metadataBytes (d : PageBytes) : ℕ := (List.finRange pageSize).countP fun j => d j ≠ 0#8

def writtenBytes (d : PageBytes) : ℕ :=
  (List.finRange pageSize).countP fun j => d j &&& 0x02#8 ≠ 0#8

/-- Pages and words, and not chunks of the read-only buffer. -/
def Call.isData : Call → Bool
  | .forwardPage _ _ (.page _ _) _ => true
  | .forwardPacket _ _ _ _ _ _ => true
  | _ => false

def Call.isRoChunk : Call → Bool
  | .forwardPage _ _ (.roPageBuffer _) _ => true
  | _ => false

def Call.isEoi : Call → Bool
  | .broadcastEoi _ _ _ _ => true
  | _ => false

/-- The packets that the calls of a kind returned. -/
def Packets.packetsOf (K : Packets) (p : Call → Bool) (log : List Call) : ℕ :=
  ((log.zipIdx.filter fun c => p c.1).map fun c => K.packets c.2).sum

open Classical in
/-- The contents of the shadow pages that were sent as a whole. -/
noncomputable def shadowPages (am : AddressMap) (log : List Call) : List PageBytes :=
  log.filterMap fun
    | .forwardPage _ _ (.page a data) _ => if ∃ s : am.Shadow, s.1.addr = a then some data else none
    | _ => none

/-- The counters, as functions of the calls that were made.  Broadcasts of
    allocations are not counted. -/
structure Counts (am : AddressMap) (K : Packets) (log : List Call) (boi : List ℕ) (pr : Profile) :
    Prop where
  mTotal : pr.mTotal = 2 * ((shadowPages am log).map metadataBytes).sum
  eTotal : pr.eTotal = 2 * ((shadowPages am log).map writtenBytes).sum
  pTotal : pr.pTotal = 2 * pageSize * (shadowPages am log).length
  eOutgoingBw : pr.eOutgoingBw = pr.eTotal + K.sizeofPacket * K.packetsOf Call.isData log
  roOutgoingBw : pr.roOutgoingBw = K.sizeofPacket * K.packetsOf Call.isRoChunk log +
    K.sizeofPacketChunk * log.countP Call.isRoChunk
  mOutgoingBw : pr.mOutgoingBw = pr.mTotal + K.sizeofPacket *
    (K.packetsOf Call.isData log + K.packetsOf Call.isEoi log + boi.sum) + pr.roOutgoingBw

theorem Packets.packetsOf_concat (p : Call → Bool) (log : List Call) (c : Call) :
    K.packetsOf p (log ++ [c]) = K.packetsOf p log + if p c then K.packets log.length else 0 := by
  unfold Packets.packetsOf
  rw [List.zipIdx_append, List.filter_append, List.map_append, List.sum_append]
  cases h : p c <;> simp [h]

@[simp] theorem shadowPages_append (log log' : List Call) :
    shadowPages am (log ++ log') = shadowPages am log ++ shadowPages am log' := by
  simp [shadowPages]

theorem shadowPages_shadow {data : PageBytes} {s : am.Shadow} :
    shadowPages am [.forwardPage wid iter (.page s.1.addr data) check] = [data] := by
  simp [shadowPages]

theorem shadowPages_other {data : PageBytes} (h : ∀ s : am.Shadow, s.1.addr ≠ mem) :
    shadowPages am [.forwardPage wid iter (.page mem data) check] = [] := by
  simp [shadowPages, h]

/-- The state of `count_bytes` after `n` rounds. -/
theorem countBytes_eq (m : Memory) (page : ℕ) : Prof.countBytes m page (0, 0) =
    (metadataBytes (snapshot m page), writtenBytes (snapshot m page)) := by
  have hcount : ∀ p : Byte → Bool, (List.range pageSize).countP (fun j => p (m (page + j))) =
      (List.finRange pageSize).countP fun j => p (snapshot m page j) := by
    intro p
    rw [← List.map_coe_finRange_eq_range, List.countP_map]
    rfl
  have hloop : ∀ n, forN n (fun k => Prof.countByte m page (0 + 1 * k)) (0, 0) =
      ((List.range n).countP (fun j => decide (m (page + j) ≠ 0#8)),
        (List.range n).countP fun j => decide (m (page + j) &&& 0x02#8 ≠ 0#8)) := by
    intro n
    induction n with
    | zero => rfl
    | succ n ih =>
      rw [forN, ih, List.range_succ, List.countP_append, List.countP_append, List.countP_singleton,
        List.countP_singleton]
      simp only [Prof.countByte, Nat.zero_add, Nat.one_mul, decide_eq_true_eq]
      split_ifs <;> rfl
  unfold Prof.countBytes forLoop
  rw [rounds_one, Nat.sub_zero, hloop]
  exact congrArg₂ Prod.mk (hcount fun b => decide (b ≠ 0#8))
    (hcount fun b => decide (b &&& 0x02#8 ≠ 0#8))

/-! ## Keeping count -/

theorem Counts.malloc (h : Counts am K log boi pr) (elem : Fin pageSize → VerMallocInstance)
    (size : ℕ) : Counts am K (log ++ [.broadcastMallocChunk wid elem size]) boi pr := by
  have hpages : shadowPages am [.broadcastMallocChunk wid elem size] = [] := rfl
  constructor <;>
    simp [hpages, K.packetsOf_concat, Call.isData, Call.isRoChunk, Call.isEoi, h.mTotal, h.eTotal,
      h.pTotal, h.eOutgoingBw, h.roOutgoingBw, h.mOutgoingBw]

theorem Counts.eoi (h : Counts am K log boi pr) :
    Counts am K (log ++ [eoiCall wid]) boi
      { pr with mOutgoingBw := pr.mOutgoingBw + K.sizeofPacket * K.packets log.length } := by
  have hpages : shadowPages am [eoiCall wid] = [] := rfl
  constructor <;>
    simp only [shadowPages_append, hpages, List.append_nil, K.packetsOf_concat, List.countP_append,
      h.mTotal, h.eTotal, h.pTotal, h.eOutgoingBw, h.roOutgoingBw, h.mOutgoingBw] <;>
    simp [eoiCall, Call.isData, Call.isRoChunk, Call.isEoi]
  ring

theorem Counts.sendBoi (h : Counts am K log boi pr) (n : ℕ) :
    Counts am K log (boi ++ [n])
      { pr with mOutgoingBw := pr.mOutgoingBw + n * K.sizeofPacket } := by
  refine ⟨h.mTotal, h.eTotal, h.pTotal, h.eOutgoingBw, h.roOutgoingBw, ?_⟩
  simp only [h.mOutgoingBw, List.sum_append, List.sum_singleton]
  ring

/-- The counters for heap pages are counted apart. -/
theorem Counts.heaps (h : Counts am K log boi pr) (heapPages outgoingHeaps : ℕ) :
    Counts am K log boi { pr with heapPages := heapPages, outgoingHeaps := outgoingHeaps } :=
  ⟨h.mTotal, h.eTotal, h.pTotal, h.eOutgoingBw, h.roOutgoingBw, h.mOutgoingBw⟩

namespace Prof

theorem forwardRoPage_counts {s : Outbox × Profile} (h : Counts am K s.1.log boi s.2) :
    Counts am K (forwardRoPage K wid iter s).1.log boi (forwardRoPage K wid iter s).2 := by
  unfold forwardRoPage
  dsimp only
  split_ifs
  · have hpages : shadowPages am
        [.forwardPage wid iter (.roPageBuffer s.1.roPageBuffer.data) .roPage] = [] := rfl
    constructor <;>
      simp only [forwardPage, SpecPriv.forwardPage, Outbox.call, shadowPages_append, hpages,
        List.append_nil, K.packetsOf_concat, List.countP_append, h.mTotal, h.eTotal, h.pTotal,
        h.eOutgoingBw, h.roOutgoingBw, h.mOutgoingBw] <;>
      simp [Call.isData, Call.isRoChunk, Call.isEoi]
    · ring
    · ring
  · exact h

theorem bufferRoPage_counts {s : Outbox × Profile} (h : Counts am K s.1.log boi s.2) (page : ℕ) :
    Counts am K (bufferRoPage K wid iter page s).1.log boi (bufferRoPage K wid iter page s).2 := by
  have hroom : Counts am K (makeRoom K wid iter s).1.log boi (makeRoom K wid iter s).2 := by
    unfold makeRoom
    split_ifs
    · exact forwardRoPage_counts h
    · exact h
  exact hroom

theorem forwardWord_counts {s : Outbox × Profile} (h : Counts am K s.1.log boi s.2) (m : Memory)
    (i : ℕ) : Counts am K (forwardWord K wid iter m mem shadow check i s).1.log boi
      (forwardWord K wid iter m mem shadow check i s).2 := by
  unfold forwardWord
  dsimp only
  split_ifs
  · have hpages : ∀ ptr value, shadowPages am
        [.forwardPacket wid iter ptr value 8 check] = [] := fun _ _ => rfl
    constructor <;>
      simp only [forwardPacket, SpecPriv.forwardPacket, Outbox.call, shadowPages_append, hpages,
        List.append_nil, K.packetsOf_concat, List.countP_append, h.mTotal, h.eTotal, h.pTotal,
        h.eOutgoingBw, h.roOutgoingBw, h.mOutgoingBw] <;>
      simp [Call.isData, Call.isRoChunk, Call.isEoi]
    · ring
    · ring
  · exact h

theorem forwardPair_counts (hmem : ∀ t : am.Shadow, t.1.addr ≠ mem) (t : am.Shadow)
    (nonzero : ℕ) (s : Sender) (h : Counts am K s.out.log boi pr) :
    Counts am K (forwardPair K nonzero wid iter mem t.1.addr check s pr).1.out.log boi
      (forwardPair K nonzero wid iter mem t.1.addr check s pr).2 := by
  unfold forwardPair
  split_ifs
  · constructor <;>
      simp only [forwardPage, SpecPriv.forwardPage, Outbox.call, shadowPages_append,
        shadowPages_other hmem, shadowPages_shadow, List.append_nil, K.packetsOf_concat,
        List.countP_append, countBytes_eq, List.map_append, List.sum_append, List.length_append,
        h.mTotal, h.eTotal, h.pTotal, h.eOutgoingBw, h.roOutgoingBw, h.mOutgoingBw] <;>
      simp [Call.isData, Call.isRoChunk, Call.isEoi] <;>
      ring
  · exact forLoop_keeps (fun s : Outbox × Profile => Counts am K s.1.log boi s.2)
      (fun _ _ _ _ hs => forwardWord_counts hs _ _) h
  · exact bufferRoPage_counts h mem

/-- The counters of a sender are right. -/
abbrev Counted (am : AddressMap) (K : Packets) (boi : List ℕ) (s : ProfSender) : Prop :=
  Counts am K s.out.log boi s.profile

theorem originals_other (s t : am.Shadow) : t.1.addr ≠ (am.getOriginalOf s).addr := by
  intro h
  exact original_ne s t (Page.ext_addr h).symm

theorem forwardShadow_counts {s : ProfSender} (h : Counted am K boi s) (t : am.Shadow) :
    Counted am K boi (forwardShadow K wid iter s t) := by
  unfold forwardShadow
  dsimp only
  split_ifs
  · exact h
  · exact forwardPair_counts (originals_other t) t _ _ h
  · exact forwardPair_counts (originals_other t) t _ _ h
  · exact h

theorem forwardHeap_counts {s : ProfSender} (h : Counted am K boi s) (t : am.Shadow) :
    Counted am K boi (forwardHeap K wid iter s t) := by
  have hheaps : ∀ n k, Counts am K s.out.log boi
      { s.profile with heapPages := n, outgoingHeaps := k } := fun n k => h.heaps n k
  unfold forwardHeap
  dsimp only
  split_ifs
  · exact hheaps _ _
  · exact forwardPair_counts (originals_other t) t _ _ (hheaps _ _)
  · exact forwardPair_counts (originals_other t) t _ _ (hheaps _ _)
  · exact hheaps _ s.profile.outgoingHeaps

theorem forwardPages_counts {s : ProfSender} (h : Counted am K boi s)
    (shadowGlobals shadowStacks shadowHeaps : List am.Shadow) :
    Counted am K boi (forwardPages K wid iter shadowGlobals shadowStacks shadowHeaps s) := by
  have hshadows : ∀ (l : List am.Shadow) {s : ProfSender}, Counted am K boi s →
      Counted am K boi (l.foldl (forwardShadow K wid iter) s) := by
    intro l s hs
    induction l generalizing s with
    | nil => exact hs
    | cons t l ih => exact ih (forwardShadow_counts hs t)
  have hheaps : ∀ (l : List am.Shadow) {s : ProfSender}, Counted am K boi s →
      Counted am K boi (l.foldl (forwardHeap K wid iter) s) := by
    intro l s hs
    induction l generalizing s with
    | nil => exact hs
    | cons t l ih => exact ih (forwardHeap_counts hs t)
  exact forwardRoPage_counts (hheaps shadowHeaps (hshadows shadowStacks (hshadows shadowGlobals h)))

theorem endIter_boi (w : ProfWorker am) : (endIter K rt wid w).boi = w.boi := by
  unfold endIter
  dsimp only
  split_ifs <;> rfl

theorem endIter_counts (h : Counts am K w.out.log boi w.profile) :
    Counts am K (endIter K rt wid w).out.log boi (endIter K rt wid w).profile := by
  have hpages : Counted am K boi
      (forwardPages K wid w.currentIter w.shadowGlobals w.shadowStacks w.shadowHeaps
        ⟨⟨rt.updateShadow w.mem, w.out.call (w.mallocCall wid)⟩, w.profile, 0, 0⟩) :=
    forwardPages_counts (h.malloc _ _) _ _ _
  by_cases hrun : runIteration rt.layout wid w.currentIter <;>
    by_cases heoi : eoiTest rt.layout wid w.currentIter <;>
    simp only [endIter, hrun, heoi, if_true]
  · exact hpages.eoi
  · exact hpages
  · exact h.eoi
  · exact h

end Prof

theorem ProfWorker.Step.counts (h : ProfWorker.Step K rt wid w w')
    (hw : Counts am K w.out.log w.boi w.profile) :
    Counts am K w'.out.log w'.boi w'.profile := by
  cases h with
  | body w' hout =>
    show Counts am K w'.out.log w.boi w.profile
    rwa [hout]
  | boi n => exact hw.sendBoi n
  | endIter =>
    rw [Prof.endIter_boi]
    exact Prof.endIter_counts hw

theorem writtenBytes_le (d : PageBytes) : writtenBytes d ≤ metadataBytes d := by
  unfold writtenBytes metadataBytes
  refine List.countP_mono_left ?_
  intro j _ hj
  simp only [decide_eq_true_eq] at hj ⊢
  intro h0
  exact hj (by rw [h0]; rfl)

theorem metadataBytes_le (d : PageBytes) : metadataBytes d ≤ pageSize := by
  have hle : metadataBytes d ≤ (List.finRange pageSize).length := List.countP_le_length
  rwa [List.length_finRange] at hle

/-- The bytes that were written have metadata, and there is no more metadata
    than bytes. -/
theorem Counts.ordered (h : Counts am K log boi pr) :
    pr.eTotal ≤ pr.mTotal ∧ pr.mTotal ≤ pr.pTotal := by
  have hwritten : ((shadowPages am log).map writtenBytes).sum ≤
      ((shadowPages am log).map metadataBytes).sum :=
    List.sum_le_sum fun d _ => writtenBytes_le d
  have hmetadata : ((shadowPages am log).map metadataBytes).sum ≤
      (shadowPages am log).length * pageSize := by
    have hsum := List.sum_le_card_nsmul ((shadowPages am log).map metadataBytes) pageSize
    simp only [List.length_map, nsmul_eq_mul, Nat.cast_id, List.mem_map] at hsum
    refine hsum ?_
    rintro x ⟨d, -, rfl⟩
    exact metadataBytes_le d
  rw [h.eTotal, h.mTotal, h.pTotal]
  refine ⟨by omega, ?_⟩
  calc 2 * ((shadowPages am log).map metadataBytes).sum
      ≤ 2 * ((shadowPages am log).length * pageSize) := Nat.mul_le_mul_left 2 hmetadata
    _ = 2 * pageSize * (shadowPages am log).length := by ring

/-- A worker that has sent and counted nothing. -/
def ProfWorker.Starts (w : ProfWorker am) : Prop :=
  w.out = .init ∧ w.profile = .zero ∧ w.dumps = [] ∧ w.boi = []

/-- **The counters are what was sent.**  Over any run the six counters of bytes
    and bandwidth (the numbers of pages of each heap are not among them) are
    functions of the worker's calls and of what these returned; what was written
    is at most what has metadata, which is at most what the pages hold; and the
    total bandwidth is that of the three kinds of traffic: useful data, chunks
    of the read-only buffer, and events, besides the bytes that have metadata
    but were not written. -/
theorem profile_counts (hw : w.Starts) (h : ReflTransGen (ProfWorker.Step K rt wid) w w') :
    Counts am K w'.out.log w'.boi w'.profile ∧
    w'.profile.eTotal ≤ w'.profile.mTotal ∧ w'.profile.mTotal ≤ w'.profile.pTotal ∧
    w'.profile.mOutgoingBw + w'.profile.eTotal =
      w'.profile.eOutgoingBw + w'.profile.roOutgoingBw + w'.profile.mTotal +
        K.sizeofPacket * (K.packetsOf Call.isEoi w'.out.log + w'.boi.sum) := by
  have hcounts : Counts am K w'.out.log w'.boi w'.profile := by
    induction h with
    | refl =>
      obtain ⟨hout, hprofile, -, hboi⟩ := hw
      rw [hout, hprofile, hboi]
      constructor <;> simp [Outbox.init, Profile.zero, shadowPages, Packets.packetsOf]
    | tail _ hstep ih => exact hstep.counts ih
  obtain ⟨hwritten, hmetadata⟩ := hcounts.ordered
  refine ⟨hcounts, hwritten, hmetadata, ?_⟩
  rw [hcounts.mOutgoingBw, hcounts.eOutgoingBw]
  ring

/-- One worker of `oneThenTwo`, with one page that was written all over; every
    call returns one packet. -/
def ProfWorker.onePage : ProfWorker .shifted :=
  ⟨Worker.fresh (fun _ => 0x82#8) [SpecPriv.onePage], .zero, [], []⟩

def Packets.ones : Packets := ⟨fun _ => 1, 24, 8⟩

theorem profile_counts_onePage :
    let w' := Prof.endIter .ones ⟨.oneThenTwo, id, id⟩ 1 ProfWorker.onePage
    Counts .shifted .ones w'.out.log w'.boi w'.profile ∧
    w'.profile.eTotal ≤ w'.profile.mTotal ∧ w'.profile.mTotal ≤ w'.profile.pTotal ∧
    w'.profile.mOutgoingBw + w'.profile.eTotal =
      w'.profile.eOutgoingBw + w'.profile.roOutgoingBw + w'.profile.mTotal +
        Packets.ones.sizeofPacket *
          (Packets.ones.packetsOf Call.isEoi w'.out.log + w'.boi.sum) := by
  intro w'
  have hrun : ReflTransGen (ProfWorker.Step .ones ⟨.oneThenTwo, id, id⟩ 1) ProfWorker.onePage w' :=
    .single (.endIter ProfWorker.onePage)
  exact profile_counts ⟨rfl, rfl, rfl, rfl⟩ hrun

/-! ## What is dumped -/

/-- Some pages were walked over: `tp` counts them, and `wp` those of them that
    do not go into the read-only buffer. -/
structure Tallies (m : Memory) (s s' : ProfSender) (pages : List am.Shadow) : Prop where
  tp : s'.tp = s.tp + pages.length
  wp : s'.wp + (pageEntries m pages).length = s.wp + pages.length

namespace Tallies

variable {m : Memory} {s s' s'' : ProfSender} {pages pages' : List am.Shadow} {t : am.Shadow}

theorem none (htp : s'.tp = s.tp) (hwp : s'.wp = s.wp) :
    Tallies m s s' ([] : List am.Shadow) := by
  refine ⟨htp, ?_⟩
  rw [hwp]
  rfl

theorem trans (h : Tallies m s s' pages) (h' : Tallies m s' s'' pages') :
    Tallies m s s'' (pages ++ pages') := by
  have htp := h.tp
  have hwp := h.wp
  have htp' := h'.tp
  have hwp' := h'.wp
  constructor <;> simp only [pageEntries, List.flatMap_append, List.length_append] at * <;> omega

/-- One page, which the scans of `is_ro_page` and of `clear_read` classify in
    the same way. -/
theorem one (htp : s'.tp = s.tp + 1)
    (hwp : s'.wp = if ReadonlyPage (clearTouched m t.1.addr) t.1.addr then s.wp else s.wp + 1) :
    Tallies m s s' [t] := by
  refine ⟨htp, ?_⟩
  rw [hwp]
  have hentries : pageEntries m [t] = (parcelOf m t).entries := by simp [pageEntries]
  rw [hentries, parcelOf, parcel]
  split_ifs <;> rfl

end Tallies

namespace Prof

variable {m : Memory} {seen : List am.Shadow} {o : Outbox} {s : ProfSender}

/-- What the two loop bodies find out about a page that is still touched. -/
theorem scans_walk {t : am.Shadow} (ht : touched (wipe m seen) t.1.addr) :
    (isZeroPage (clearTouched (wipe m seen) t.1.addr) t.1.addr ↔
      isZeroPage (clearTouched m t.1.addr) t.1.addr) ∧
    (isRoPage t.1.addr (clearTouched (wipe m seen) t.1.addr) ↔
      ReadonlyPage (clearTouched m t.1.addr) t.1.addr) ∧
    ((clearRead t.1.addr (clearTouched (wipe m seen) t.1.addr)).2 = 0 ↔
      ReadonlyPage (clearTouched m t.1.addr) t.1.addr) := by
  have hagree := (wipe_agree ht).clearTouched_self
  rw [hagree.isZeroPage, isRoPage_iff, clearRead_eq_zero_iff, hagree.readonlyPage]
  exact ⟨Iff.rfl, Iff.rfl, Iff.rfl⟩

theorem forwardShadow_tally (hs : s.toSender = ⟨wipe m seen, o⟩) (t : am.Shadow) :
    Tallies m s (forwardShadow K wid iter s t) (if Marked m t ∧ t ∉ seen then [t] else []) := by
  have hmem : s.mem = wipe m seen := congrArg Sender.mem hs
  unfold forwardShadow
  dsimp only
  rw [hmem]
  by_cases ht : touched (wipe m seen) t.1.addr
  · obtain ⟨htm, hseen⟩ := touched_wipe_iff.1 ht
    obtain ⟨hzero, hro, -⟩ := scans_walk ht
    rw [if_pos ht]
    by_cases hz : isZeroPage (clearTouched m t.1.addr) t.1.addr
    · rw [if_pos (hzero.2 hz), if_neg fun h => h.1.2 hz]
      exact .none rfl rfl
    · have hmarked : Marked m t ∧ t ∉ seen := ⟨⟨htm, hz⟩, hseen⟩
      rw [if_neg (mt hzero.1 hz), if_pos hmarked]
      refine .one rfl ?_
      simp only [hro, ite_not]
  · rw [if_neg ht, if_neg fun h => ht (touched_wipe_iff.2 ⟨h.1.1, h.2⟩)]
    exact .none rfl rfl

theorem forwardHeap_tally (hs : s.toSender = ⟨wipe m seen, o⟩) (t : am.Shadow) :
    Tallies m s (forwardHeap K wid iter s t) (if Marked m t ∧ t ∉ seen then [t] else []) := by
  have hmem : s.mem = wipe m seen := congrArg Sender.mem hs
  unfold forwardHeap
  dsimp only
  rw [hmem]
  by_cases ht : touched (wipe m seen) t.1.addr
  · obtain ⟨htm, hseen⟩ := touched_wipe_iff.1 ht
    obtain ⟨hzero, -, hread⟩ := scans_walk ht
    rw [if_pos ht]
    by_cases hz : isZeroPage (clearTouched m t.1.addr) t.1.addr
    · rw [if_pos (hzero.2 hz), if_neg fun h => h.1.2 hz]
      exact .none rfl rfl
    · have hmarked : Marked m t ∧ t ∉ seen := ⟨⟨htm, hz⟩, hseen⟩
      rw [if_neg (mt hzero.1 hz), if_pos hmarked]
      refine .one rfl ?_
      simp only [ne_eq, hread, ite_not]
  · rw [if_neg ht, if_neg fun h => ht (touched_wipe_iff.2 ⟨h.1.1, h.2⟩)]
    exact .none rfl rfl

/-- A loop over shadow pages, whichever of the two bodies it has. -/
theorem foldl_tally {f : ProfSender → am.Shadow → ProfSender}
    (hsend : ∀ s t, (f s t).toSender = SpecPriv.forwardShadow wid iter s.toSender t)
    (htally : ∀ {s seen o}, s.toSender = ⟨wipe m seen, o⟩ → ∀ t,
      Tallies m s (f s t) (if Marked m t ∧ t ∉ seen then [t] else [])) :
    ∀ (l : List am.Shadow) {s : ProfSender} {seen : List am.Shadow} {o : Outbox},
      s.toSender = ⟨wipe m seen, o⟩ →
        Tallies m s (l.foldl f s) (newMarked m seen l) ∧
        ∃ o', (l.foldl f s).toSender = ⟨wipe m (seen ++ l), o'⟩
  | [], s, seen, o, hs => by
    refine ⟨.none rfl rfl, o, ?_⟩
    rwa [List.append_nil]
  | t :: l, s, seen, o, hs => by
    have hnext : ∃ o', (f s t).toSender = ⟨wipe m (seen ++ [t]), o'⟩ := by
      rw [hsend, hs, forwardShadow_walk]
      exact ⟨_, rfl⟩
    obtain ⟨o', hnext⟩ := hnext
    obtain ⟨hrest, hend⟩ := foldl_tally hsend htally l hnext
    have hall := (htally hs t).trans hrest
    rw [List.append_assoc] at hend
    refine ⟨?_, hend⟩
    rw [newMarked]
    split_ifs with h
    · rwa [if_pos h] at hall
    · rwa [if_neg h] at hall

theorem forwardPages_tally (shadowGlobals shadowStacks shadowHeaps : List am.Shadow) (m : Memory)
    (o : Outbox) (pr : Profile) :
    Tallies m ⟨⟨m, o⟩, pr, 0, 0⟩
      (forwardPages K wid iter shadowGlobals shadowStacks shadowHeaps ⟨⟨m, o⟩, pr, 0, 0⟩)
      (markedPages m (shadowGlobals ++ shadowStacks ++ shadowHeaps)) := by
  have hstart : (⟨m, o⟩ : Sender) = ⟨wipe m ([] : List am.Shadow), o⟩ := by rw [wipe_nil]
  have hshadows := @foldl_tally am wid iter m (forwardShadow K wid iter) forwardShadow_toSender
    forwardShadow_tally
  obtain ⟨hglobals, o₁, h₁⟩ :=
    @hshadows shadowGlobals ⟨⟨m, o⟩, pr, 0, 0⟩ [] o hstart
  obtain ⟨hstacks, o₂, h₂⟩ := hshadows shadowStacks h₁
  obtain ⟨hheaps, -⟩ := foldl_tally forwardHeap_toSender forwardHeap_tally shadowHeaps h₂
  have hall := (hglobals.trans hstacks).trans hheaps
  rw [markedPages, newMarked_append, newMarked_append]
  exact ⟨hall.tp, hall.wp⟩

/-- What an iteration of the worker dumps. -/
theorem endIter_dumps {w : ProfWorker am} (hrun : runIteration rt.layout wid w.currentIter) :
    ∃ tp wp, (endIter K rt wid w).dumps = w.dumps ++ [⟨w.currentIter, tp, wp⟩] ∧
      tp = (markedPages (rt.updateShadow w.mem) w.shadows).length ∧
      wp + (pageEntries (rt.updateShadow w.mem)
        (markedPages (rt.updateShadow w.mem) w.shadows)).length = tp := by
  have htally := @forwardPages_tally _ K wid w.currentIter w.shadowGlobals w.shadowStacks
    w.shadowHeaps (rt.updateShadow w.mem) (w.out.call (w.mallocCall wid)) w.profile
  obtain ⟨htp, hwp⟩ := htally
  refine ⟨_, _, ?_, htp.trans (Nat.zero_add _), hwp.trans htp.symm⟩
  simp only [endIter, hrun, if_true]
  split_ifs <;> rfl

end Prof

/-- The dumps are those of the iterations that the worker owned, in order, and
    each agrees with the read-only chunks sent for its iteration. -/
structure Dumped (rt : Runtime) (wid : Wid) (a : ℕ) (w : ProfWorker am) : Prop where
  le : a ≤ w.currentIter
  iters : w.dumps.map Dump.iter = ownedBetween rt.layout wid a w.currentIter
  pending : w.out.roPageBuffer.Pending []
  unsent : ∀ n ≥ w.currentIter, entriesUnder n w.out.log = []
  entries : ∀ d ∈ w.dumps, d.written + (entriesUnder d.iter w.out.log).length = d.touched

namespace Dumped

variable {a : ℕ}

/-- What the dumps rest on. -/
theorem congr (h : Dumped rt wid a w) (hdumps : w'.dumps = w.dumps) (hout : w'.out = w.out)
    (hiter : w'.currentIter = w.currentIter) : Dumped rt wid a w' := by
  obtain ⟨hle, hiters, hpending, hunsent, hentries⟩ := h
  constructor <;> simp only [hdumps, hout, hiter] <;> assumption

theorem iter_lt (h : Dumped rt wid a w) {d : Dump} (hd : d ∈ w.dumps) : d.iter < w.currentIter := by
  have hmem : d.iter ∈ ownedBetween rt.layout wid a w.currentIter := by
    rw [← h.iters]
    exact List.mem_map_of_mem hd
  exact (mem_ownedBetween.1 hmem).1.2

/-- An iteration of the worker. -/
theorem endIter_owned (h : Dumped rt wid a w)
    (hrun : runIteration rt.layout wid w.currentIter) :
    Dumped rt wid a (Prof.endIter K rt wid w) := by
  have hiter : (Prof.endIter K rt wid w).currentIter = w.currentIter + 1 := rfl
  obtain ⟨tp, wp, hdumps, -, hwp⟩ := @Prof.endIter_dumps _ K rt wid w hrun
  obtain ⟨hpending, cs, hlog, hcs, hother⟩ := endIter_roEntries h.pending hrun
  rw [← Prof.endIter_toWorker (K := K)] at hpending hlog
  rw [List.append_nil, List.nil_append] at hcs
  refine ⟨?_, ?_, hpending, ?_, ?_⟩
  · rw [hiter]
    exact h.le.trans (Nat.le_succ _)
  · rw [hdumps, hiter, List.map_append, h.iters, ownedBetween_succ h.le, if_pos hrun]
    rfl
  · intro n hn
    rw [hiter] at hn
    rw [hlog, entriesUnder_append, h.unsent n (by omega), hother n (by omega)]
    rfl
  · intro d hd
    rw [hdumps, List.mem_append, List.mem_singleton] at hd
    rw [hlog, entriesUnder_append, List.length_append]
    rcases hd with hd | rfl
    · rw [hother d.iter (h.iter_lt hd).ne]
      exact h.entries d hd
    · rw [h.unsent _ le_rfl, hcs]
      simpa using hwp

/-- An iteration of another worker. -/
theorem endIter_other (h : Dumped rt wid a w)
    (hrun : ¬ runIteration rt.layout wid w.currentIter) :
    Dumped rt wid a (Prof.endIter K rt wid w) := by
  have hiter : (Prof.endIter K rt wid w).currentIter = w.currentIter + 1 := rfl
  have hdumps : (Prof.endIter K rt wid w).dumps = w.dumps := by
    simp only [Prof.endIter, if_neg hrun]
    split_ifs <;> rfl
  have hbuffer : (Prof.endIter K rt wid w).out.roPageBuffer = w.out.roPageBuffer := by
    simp only [Prof.endIter, if_neg hrun]
    split_ifs <;> rfl
  have hentries : ∀ n, entriesUnder n (Prof.endIter K rt wid w).out.log =
      entriesUnder n w.out.log := by
    intro n
    simp only [Prof.endIter, if_neg hrun]
    split_ifs
    · simp [Outbox.call, entriesUnder, Call.chunkUnder]
    · rfl
  refine ⟨h.le.trans (Nat.le_succ _), ?_, ?_, ?_, ?_⟩
  · rw [hdumps, hiter, ownedBetween_succ h.le, if_neg hrun, List.append_nil, h.iters]
  · rw [hbuffer]
    exact h.pending
  · intro n hn
    rw [hentries]
    exact h.unsent n (by omega)
  · rw [hdumps]
    intro d hd
    rw [hentries]
    exact h.entries d hd

theorem step (h : Dumped rt wid a w) (hstep : ProfWorker.Step K rt wid w w') :
    Dumped rt wid a w' := by
  cases hstep with
  | body w' hout hiter => exact h.congr rfl hout hiter
  | boi n => exact h.congr rfl rfl rfl
  | endIter =>
    by_cases hrun : runIteration rt.layout wid w.currentIter
    · exact h.endIter_owned hrun
    · exact h.endIter_other hrun

end Dumped

/-- **What is dumped is what was sent.**  Over any run a worker dumps one line
    for each iteration that it owned, in order, and of the pages that the line
    of an iteration gives as touched and not as written, the read-only chunks
    sent for the iteration carry exactly as many. -/
theorem dump_exact (hw : w.Starts) (h : ReflTransGen (ProfWorker.Step K rt wid) w w') :
    w'.dumps.map Dump.iter = ownedBetween rt.layout wid w.currentIter w'.currentIter ∧
    ∀ d ∈ w'.dumps, d.written + (entriesUnder d.iter w'.out.log).length = d.touched := by
  have hdumped : Dumped rt wid w.currentIter w' := by
    induction h with
    | refl =>
      obtain ⟨hout, -, hdumps, -⟩ := hw
      refine ⟨le_rfl, ?_, ?_, ?_, ?_⟩
      · rw [hdumps, ownedBetween, List.Ico.self_empty]
        rfl
      · rw [hout]
        exact pending_init
      · intro n _
        rw [hout]
        rfl
      · rw [hdumps]
        simp
    | tail _ hstep ih => exact ih.step hstep
  exact ⟨hdumped.iters, hdumped.entries⟩

theorem dump_exact_onePage :
    let rt : Runtime := ⟨.oneThenTwo, id, id⟩
    let w' := Prof.endIter .ones rt 1 ProfWorker.onePage
    w'.dumps.map Dump.iter = ownedBetween rt.layout 1 6 7 ∧
    ∀ d ∈ w'.dumps, d.written + (entriesUnder d.iter w'.out.log).length = d.touched := by
  intro rt w'
  have hrun : ReflTransGen (ProfWorker.Step .ones rt 1) ProfWorker.onePage w' :=
    .single (.endIter ProfWorker.onePage)
  exact dump_exact ⟨rfl, rfl, rfl, rfl⟩ hrun

end SpecPriv
