import Mathlib.Data.List.Perm.Subperm
import Mathlib.Data.Vector.Basic
import UdpTransfer.Receiver.Calls

/-!
# Sessions of the receive buffer

A session calls `addData` and `requestData` in any order, starting from
`initialize`.  It records the numbers for which `addData` returned nonzero,
which `tcpds` acknowledges, and the bytes that `requestData` handed out.  A
call that does not return ends the session.
-/

namespace UdpTransfer.Receiver

open UdpTransfer.Memory
open UdpTransfer.Runs
open SBuffer

/-- The bytes that a full-size packet carries. -/
abbrev Payload := List.Vector UInt8 1000

theorem length_payload (p : Payload) : (p.toList.length : ℤ) = 1000 := by
  rw [List.Vector.toList_length]
  rfl

namespace SBuffer

def ringFrom (s : SBuffer) : ℕ → ℕ → List Extent
  | 0, _ => []
  | fuel + 1, current =>
      s.extent current ::
        if s.succ current = s.head then [] else s.ringFrom fuel (s.succ current)

/-- What the walk round the ring meets. -/
def toRing (s : SBuffer) : RingBuffer where
  buffer := s.buffer
  dstart := s.dstart
  dend := s.dend
  runs := s.ringFrom s.fresh s.head

theorem ringFrom_eq_map {s : SBuffer} (after : List ℕ) :
    ∀ (before : List ℕ) (current fuel : ℕ),
      s.OnRing (before ++ current :: after) → after.length < fuel →
      s.ringFrom fuel current = (current :: after).map s.extent := by
  induction after with
  | nil =>
      intro before current fuel hring hfuel
      cases fuel with
      | zero => omega
      | succ fuel => simp [ringFrom, hring.succ_last]
  | cons next after ih =>
      intro before current fuel hring hfuel
      cases fuel with
      | zero => omega
      | succ fuel =>
          rw [ringFrom, hring.succ_mid, if_neg hring.mid_ne_head,
            ih (before ++ [current]) next fuel (by simpa using hring)
              (by simpa using hfuel)]
          rfl

theorem OnRing.length_le {s : SBuffer} {cells : List ℕ}
    (hring : s.OnRing cells) : cells.length ≤ s.fresh := by
  have hsub : cells ⊆ List.range s.fresh := fun address hmem =>
    List.mem_range.2 (hring.allocated address hmem)
  have hle := (hring.cycle.nodup.subperm hsub).length_le
  rwa [List.length_range] at hle

theorem Represents.toRing_eq {s : SBuffer} {r : RingBuffer}
    (hrep : Represents s r) : s.toRing = r := by
  obtain ⟨cells, hring, rfl⟩ := hrep
  cases cells with
  | nil => exact absurd rfl hring.cycle.nonempty
  | cons current after =>
      obtain rfl : current = s.head := hring.cycle.head_eq
      have hlength := hring.length_le
      rw [List.length_cons] at hlength
      rw [toRing, ringFrom_eq_map after [] s.head s.fresh hring
        (Nat.lt_of_succ_le hlength)]
      rfl

end SBuffer

structure Session where
  sbuffer : SBuffer
  acked : List ℤ
  out : List UInt8

inductive Call where
  | addData (seqnum : ℤ)
  | requestData (size : ℤ)

namespace Session

def start : Session where
  sbuffer := initHead
  acked := []
  out := []

def call (payload : ℤ → Payload) (t : Session) : Call → Option Session
  | .addData seqnum =>
      (t.sbuffer.addData seqnum 1000 (payload seqnum).toList).map
        fun (result, s) =>
          { t with
            sbuffer := s
            acked := if result ≠ 0 then seqnum :: t.acked else t.acked }
  | .requestData size =>
      (t.sbuffer.requestData size).map fun (_, bytes, s) =>
        { t with sbuffer := s, out := t.out ++ bytes }

end Session

def receiver (payload : ℤ → Payload) : System Session Call where
  initial t := t = Session.start
  step t c t' := t.call payload c = some t'

/-! ## Sessions on the list of runs -/

/-- A call that returned, seen on the list of runs. -/
inductive Called (payload : ℤ → Payload) (t : Session) :
    Call → Session → Prop where
  | addData (seqnum result : ℤ) (s : SBuffer) :
      Arrival t.sbuffer.toRing seqnum (payload seqnum).toList result s.toRing →
      Called payload t (.addData seqnum)
        { t with
          sbuffer := s
          acked := if result ≠ 0 then seqnum :: t.acked else t.acked }
  | requestData (size : ℤ) (bytes : List UInt8) (s : SBuffer) :
      Delivery t.sbuffer.toRing size bytes s.toRing →
      Called payload t (.requestData size)
        { t with sbuffer := s, out := t.out ++ bytes }

/-- The buffer represents a merged ring. -/
structure Merged (s : SBuffer) : Prop where
  represents : Represents s s.toRing
  sound : Sound s.toRing

theorem merged_of_represents {s : SBuffer} {r : RingBuffer}
    (hrep : Represents s r) (hsound : Sound r) : Merged s := by
  obtain rfl := hrep.toRing_eq
  exact ⟨hrep, hsound⟩

theorem merged_initHead : Merged initHead := by
  refine merged_of_represents initHead_represents ⟨?_, ?_, ?_⟩
  · simp [RingBuffer.initHead]
  · simp only [Bounded, RingBuffer.initHead, List.mem_singleton, forall_eq]
    decide
  · exact List.isChain_singleton _

theorem Merged.addData {s s' : SBuffer} {seqnum result : ℤ}
    {data : List UInt8} (hmerged : Merged s) (hlength : data.length ≤ 64000)
    (hadd : s.addData seqnum data.length data = some (result, s')) :
    Arrival s.toRing seqnum data result s'.toRing ∧ Merged s' := by
  have hrel := addData_refines hmerged.represents hmerged.sound.bounded
    seqnum data.length data
  rw [hadd] at hrel
  cases hright : s.toRing.addData seqnum data.length data with
  | none =>
      rw [hright] at hrel
      cases hrel
  | some answer =>
      rw [hright] at hrel
      cases hrel with
      | some hanswer =>
          obtain ⟨result', r'⟩ := answer
          obtain ⟨rfl, hrep⟩ := hanswer
          obtain rfl := hrep.toRing_eq
          have harrival := hmerged.sound.arrival hlength hright
          exact ⟨harrival, hrep, hmerged.sound.of_arrival harrival⟩

theorem Merged.requestData {s s' : SBuffer} {size count : ℤ}
    {bytes : List UInt8} (hmerged : Merged s)
    (hrequest : s.requestData size = some (count, bytes, s')) :
    Delivery s.toRing size bytes s'.toRing ∧ Merged s' := by
  have hrel := requestData_refines hmerged.represents hmerged.sound.bounded
    size
  rw [hrequest] at hrel
  cases hright : s.toRing.requestData size with
  | none =>
      rw [hright] at hrel
      cases hrel
  | some answer =>
      rw [hright] at hrel
      cases hrel with
      | some hanswer =>
          obtain ⟨count', bytes', r'⟩ := answer
          obtain ⟨rfl, rfl, hrep⟩ := hanswer
          obtain rfl := hrep.toRing_eq
          have hdelivery := delivery_of_requestData hright
          exact ⟨hdelivery, hrep, hmerged.sound.of_delivery hdelivery⟩

theorem Merged.exists_addData {s : SBuffer} {r' : RingBuffer}
    {seqnum size result : ℤ} {data : List UInt8} (hmerged : Merged s)
    (hadd : s.toRing.addData seqnum size data = some (result, r')) :
    ∃ s', s.addData seqnum size data = some (result, s') ∧
      s'.toRing = r' := by
  have hrel := addData_refines hmerged.represents hmerged.sound.bounded
    seqnum size data
  rw [hadd] at hrel
  cases hleft : s.addData seqnum size data with
  | none =>
      rw [hleft] at hrel
      cases hrel
  | some answer =>
      rw [hleft] at hrel
      cases hrel with
      | some hanswer =>
          obtain ⟨result', s'⟩ := answer
          obtain ⟨rfl, hrep⟩ := hanswer
          exact ⟨s', rfl, hrep.toRing_eq⟩

theorem Merged.exists_requestData {s : SBuffer} {r' : RingBuffer}
    {size count : ℤ} {bytes : List UInt8} (hmerged : Merged s)
    (hrequest : s.toRing.requestData size = some (count, bytes, r')) :
    ∃ s', s.requestData size = some (count, bytes, s') ∧ s'.toRing = r' := by
  have hrel := requestData_refines hmerged.represents hmerged.sound.bounded
    size
  rw [hrequest] at hrel
  cases hleft : s.requestData size with
  | none =>
      rw [hleft] at hrel
      cases hrel
  | some answer =>
      rw [hleft] at hrel
      cases hrel with
      | some hanswer =>
          obtain ⟨count', bytes', s'⟩ := answer
          obtain ⟨rfl, rfl, hrep⟩ := hanswer
          exact ⟨s', rfl, hrep.toRing_eq⟩

/-- A call that returned, on the list of runs. -/
theorem Merged.toRing_addData {s s' : SBuffer} {seqnum size result : ℤ}
    {data : List UInt8} (hmerged : Merged s)
    (hadd : s.addData seqnum size data = some (result, s')) :
    s.toRing.addData seqnum size data = some (result, s'.toRing) := by
  have hrel := addData_refines hmerged.represents hmerged.sound.bounded seqnum
    size data
  rw [hadd] at hrel
  generalize s.toRing.addData seqnum size data = right at hrel ⊢
  cases hrel with
  | @some _ answer hanswer =>
      obtain ⟨rfl, hrep⟩ := hanswer
      rw [hrep.toRing_eq]

theorem Merged.toRing_requestData {s s' : SBuffer} {size count : ℤ}
    {bytes : List UInt8} (hmerged : Merged s)
    (hrequest : s.requestData size = some (count, bytes, s')) :
    s.toRing.requestData size = some (count, bytes, s'.toRing) := by
  have hrel := requestData_refines hmerged.represents hmerged.sound.bounded size
  rw [hrequest] at hrel
  generalize s.toRing.requestData size = right at hrel ⊢
  cases hrel with
  | @some _ answer hanswer =>
      obtain ⟨rfl, rfl, hrep⟩ := hanswer
      rw [hrep.toRing_eq]

/-- A packet that finds a hole inside the buffer is stored, where the merge
returns. -/
theorem Sound.store {r : RingBuffer} (hsound : Sound r) {seqnum : ℤ}
    {data : List UInt8} {before after runs : List Extent}
    {placed : Placement} (hlength : (data.length : ℤ) = 1000)
    (hseek : seek r.dstart seqnum 1000 [] r.runs =
      some (.placed before placed after))
    (hplace : 0 ≤ placed.node.data ∧ placed.node.data ≤ 64000)
    (hmerge : mergeRuns r.dstart (refill before placed after) = some runs) :
    ∃ buffer, CircWrite 64000 r.buffer buffer placed.node.data data ∧
      r.addData seqnum 1000 data =
        some (1, { buffer := buffer, dstart := r.dstart, runs := runs,
                   dend := if seqnum > r.dend then seqnum else r.dend }) := by
  obtain ⟨mid, cur, -, -, -, -, htakes⟩ := seek_placed hseek
  have hsize : placed.node.size = data.length := by
    rw [htakes.node.2.2.1, hlength]
  obtain ⟨buffer, hstore⟩ :=
    (storeBytes_eq_some_iff r.buffer hsize (by omega)).2 hplace
  refine ⟨buffer, storeBytes_circWrite hsize (by omega) hstore, ?_⟩
  rw [hsound.addData_eq, hseek, Option.bind_some]
  simp only [RingBuffer.act, RingBuffer.settle, hstore, Option.bind_some,
    RingBuffer.mergeList,
    hmerge, Option.map_some]

theorem Merged.called {payload : ℤ → Payload} {t t' : Session} {c : Call}
    (hmerged : Merged t.sbuffer) (hcall : t.call payload c = some t') :
    Called payload t c t' ∧ Merged t'.sbuffer := by
  cases c with
  | addData seqnum =>
      rw [Session.call, Option.map_eq_some_iff] at hcall
      obtain ⟨⟨result, s⟩, hadd, rfl⟩ := hcall
      have hlength := length_payload (payload seqnum)
      have hadd' : t.sbuffer.addData seqnum (payload seqnum).toList.length
          (payload seqnum).toList = some (result, s) := by
        rw [hlength]
        exact hadd
      have hstep := hmerged.addData (by omega) hadd'
      exact ⟨.addData seqnum result s hstep.1, hstep.2⟩
  | requestData size =>
      rw [Session.call, Option.map_eq_some_iff] at hcall
      obtain ⟨⟨count, bytes, s⟩, hrequest, rfl⟩ := hcall
      have hstep := hmerged.requestData hrequest
      exact ⟨.requestData size bytes s hstep.1, hstep.2⟩

theorem merged_reachable {payload : ℤ → Payload} {t : Session}
    (hreach : (receiver payload).Reachable t) : Merged t.sbuffer := by
  refine hreach.invariant (I := fun t => Merged t.sbuffer) ?_ ?_
  · rintro t rfl
    exact merged_initHead
  · intro t c t' hmerged hcall
    exact (hmerged.called hcall).2

/-- An invariant of every call that returns, on the list of runs, holds in
every session. -/
theorem session_invariant {payload : ℤ → Payload}
    {guard : Session → Call → Prop} {I : Session → Prop}
    (hstart : I Session.start)
    (hcall : ∀ t c t', guard t c → Sound t.sbuffer.toRing →
      Called payload t c t' → I t → I t')
    {t : Session} (hreach : ((receiver payload).restrict guard).Reachable t) :
    I t := by
  refine hreach.invariant_with (J := fun t => Merged t.sbuffer) ?_ ?_ ?_
  · intro t hreach
    exact merged_reachable hreach.of_restrict
  · rintro t rfl
    exact hstart
  · intro t c t' hmerged hinv hstep
    exact hcall t c t' hstep.1 hmerged.sound (hmerged.called hstep.2).1 hinv

/-- An invariant of the ring that every call keeps, on the list of runs. -/
theorem ring_invariant {payload : ℤ → Payload} {guard : Session → Call → Prop}
    {I : RingBuffer → Prop} (hstart : I RingBuffer.initHead)
    (hadd : ∀ t seqnum result r', guard t (.addData seqnum) →
      ((receiver payload).restrict guard).Reachable t → I t.sbuffer.toRing →
      t.sbuffer.toRing.addData seqnum 1000 (payload seqnum).toList =
        some (result, r') → I r')
    (hrequest : ∀ t size count bytes r', guard t (.requestData size) →
      ((receiver payload).restrict guard).Reachable t → I t.sbuffer.toRing →
      t.sbuffer.toRing.requestData size = some (count, bytes, r') → I r')
    {t : Session} (hreach : ((receiver payload).restrict guard).Reachable t) :
    I t.sbuffer.toRing := by
  induction hreach with
  | initial hinit =>
      rw [hinit, show Session.start.sbuffer = initHead from rfl,
        initHead_represents.toRing_eq]
      exact hstart
  | @step t _ c hreach hstep ih =>
      have hmerged := merged_reachable hreach.of_restrict
      obtain ⟨hguard, hcall⟩ := hstep
      cases c with
      | addData seqnum =>
          obtain ⟨⟨result, s⟩, hleft, rfl⟩ := Option.map_eq_some_iff.1 hcall
          exact hadd t seqnum result _ hguard hreach ih
            (hmerged.toRing_addData hleft)
      | requestData size =>
          obtain ⟨⟨count, bytes, s⟩, hleft, rfl⟩ :=
            Option.map_eq_some_iff.1 hcall
          exact hrequest t size count bytes _ hguard hreach ih
            (hmerged.toRing_requestData hleft)

/-! ## The layout of every session -/

theorem Layout.arrival {r r' : RingBuffer} {seqnum result : ℤ}
    {data : List UInt8} (hlength : (data.length : ℤ) = 1000)
    (hoff : OffSentinel r.dstart seqnum)
    (harrival : Arrival r seqnum data result r')
    (hlayout : Layout r.dstart r.runs) : Layout r'.dstart r'.runs := by
  cases harrival with
  | duplicate _ => exact hlayout
  | rejected _ => exact hlayout
  | stored before after runs placed buffer dend hseek _ hmerge =>
      rw [hlength] at hseek
      obtain ⟨mid, cur, hfound, hruns, hhole, hwindow, htakes⟩ :=
        seek_placed hseek
      rw [List.nil_append] at hfound
      rw [hruns, ← hfound] at hlayout
      have hmax := hoff.lt_intMax (hlayout.run_ok cur (by simp)) htakes hwindow
      exact (hlayout.place hhole htakes hmax hwindow).mergeRuns hmerge

theorem Layout.delivery {r r' : RingBuffer} {size : ℤ} {bytes : List UInt8}
    (hdelivery : Delivery r size bytes r') (hlayout : Layout r.dstart r.runs) :
    Layout r'.dstart r'.runs := by
  cases hdelivery with
  | nothing => exact hlayout
  | whole cur rest runs hruns hfilled hfirst _ hmerge =>
      rw [hruns] at hlayout
      exact (hlayout.deliver hfilled hfirst).mergeRuns hmerge
  | part cur rest hruns hfilled _ hsize _ =>
      rw [hruns] at hlayout
      exact hlayout.consume hfilled hsize

/-- No packet of the window bears the number that marks an open end. -/
def noSentinel : Session → Call → Prop
  | t, .addData seqnum => OffSentinel t.sbuffer.dstart seqnum
  | _, .requestData _ => True

theorem layout_reachable {payload : ℤ → Payload} {t : Session}
    (hreach : ((receiver payload).restrict noSentinel).Reachable t) :
    Layout t.sbuffer.toRing.dstart t.sbuffer.toRing.runs := by
  refine session_invariant
    (I := fun t => Layout t.sbuffer.toRing.dstart t.sbuffer.toRing.runs)
    ?_ ?_ hreach
  · rw [show Session.start.sbuffer = initHead from rfl,
      initHead_represents.toRing_eq]
    exact layout_initHead
  · intro t c t' hguard _ hcalled hlayout
    cases hcalled with
    | addData seqnum result s harrival =>
        have hoff : OffSentinel t.sbuffer.toRing.dstart seqnum := hguard
        exact hlayout.arrival (length_payload _) hoff harrival
    | requestData size bytes s hdelivery => exact hlayout.delivery hdelivery

/-! ## Sessions built call by call -/

/-- Every byte of packet `seqnum` is `seqnum`. -/
def numbered (seqnum : ℤ) : Payload :=
  List.Vector.replicate 1000 (UInt8.ofNat seqnum.toNat)

/-- No condition on the calls. -/
def anyCall : Session → Call → Prop := fun _ _ => True

/-- Some session that meets the guard ends with this ring and this record. -/
def Reaches (payload : ℤ → Payload) (guard : Session → Call → Prop)
    (r : RingBuffer) (acked : List ℤ) (out : List UInt8) : Prop :=
  ∃ t, ((receiver payload).restrict guard).Reachable t ∧
    t.sbuffer.toRing = r ∧ t.acked = acked ∧ t.out = out

variable {payload : ℤ → Payload} {guard : Session → Call → Prop}
  {r r' : RingBuffer} {acked : List ℤ} {out : List UInt8}

theorem reaches_start : Reaches payload guard RingBuffer.initHead [] [] :=
  ⟨Session.start, .initial rfl, initHead_represents.toRing_eq, rfl, rfl⟩

theorem Reaches.addData {seqnum result : ℤ}
    (hreaches : Reaches payload guard r acked out)
    (hguard : ∀ t : Session, t.sbuffer.toRing = r → guard t (.addData seqnum))
    (hadd : r.addData seqnum 1000 (payload seqnum).toList = some (result, r')) :
    Reaches payload guard r'
      (if result ≠ 0 then seqnum :: acked else acked) out := by
  obtain ⟨t, hreach, rfl, rfl, rfl⟩ := hreaches
  obtain ⟨s', hleft, hring⟩ :=
    (merged_reachable hreach.of_restrict).exists_addData hadd
  refine ⟨{ t with
    sbuffer := s'
    acked := if result ≠ 0 then seqnum :: t.acked else t.acked },
    hreach.step (l := .addData seqnum) ⟨hguard t rfl, ?_⟩, hring, rfl, rfl⟩
  show t.call payload (.addData seqnum) = _
  rw [Session.call, hleft]
  rfl

theorem Reaches.requestData {count : ℤ} {bytes : List UInt8}
    (hreaches : Reaches payload guard r acked out) (size : ℤ)
    (hguard : ∀ t : Session, t.sbuffer.toRing = r → guard t (.requestData size))
    (hrequest : r.requestData size = some (count, bytes, r')) :
    Reaches payload guard r' acked (out ++ bytes) := by
  obtain ⟨t, hreach, rfl, rfl, rfl⟩ := hreaches
  obtain ⟨s', hleft, hring⟩ :=
    (merged_reachable hreach.of_restrict).exists_requestData hrequest
  refine ⟨{ t with sbuffer := s', out := t.out ++ bytes },
    hreach.step (l := .requestData size) ⟨hguard t rfl, ?_⟩, hring, rfl, rfl⟩
  show t.call payload (.requestData size) = _
  rw [Session.call, hleft]
  rfl

theorem Reaches.sound (hreaches : Reaches payload guard r acked out) :
    Sound r := by
  obtain ⟨t, hreach, rfl, -, -⟩ := hreaches
  exact (merged_reachable hreach.of_restrict).sound

/-- A packet that finds a hole inside the buffer, where the merge returns. -/
theorem Reaches.store {before after runs : List Extent} {placed : Placement}
    (hreaches : Reaches payload guard r acked out) (seqnum : ℤ)
    (hguard : ∀ t : Session, t.sbuffer.toRing = r → guard t (.addData seqnum))
    (hseek : seek r.dstart seqnum 1000 [] r.runs =
      some (.placed before placed after))
    (hplace : 0 ≤ placed.node.data ∧ placed.node.data ≤ 64000)
    (hmerge : mergeRuns r.dstart (refill before placed after) = some runs) :
    ∃ buffer dend, CircWrite 64000 r.buffer buffer placed.node.data
        (payload seqnum).toList ∧
      Reaches payload guard
        { buffer := buffer, dstart := r.dstart, dend := dend, runs := runs }
        (seqnum :: acked) out := by
  obtain ⟨buffer, hwrite, hadd⟩ := hreaches.sound.store
    (length_payload (payload seqnum)) hseek hplace hmerge
  exact ⟨buffer, _, hwrite, by simpa using hreaches.addData hguard hadd⟩

/-- A request that takes the whole run at `head`, inside the buffer. -/
theorem requestData_whole {r : RingBuffer} {size : ℤ} {cur : Extent}
    {rest runs : List Extent} (hruns : r.runs = cur :: rest)
    (hfilled : cur.filled = true) (hfirst : cur.firstSeq = r.dstart)
    (hsize : cur.size ≤ size)
    (hcopy : 0 ≤ cur.data ∧ cur.data ≤ 64000 ∧ 0 ≤ cur.size ∧
      cur.size ≤ 64000)
    (hlast : -2147483648 ≤ cur.lastSeq + 1 ∧ cur.lastSeq + 1 ≤ 2147483647)
    (hmerge : mergeRuns (cur.lastSeq + 1)
      (rest ++ [{ cur with filled := false }]) = some runs) :
    r.requestData size = some (cur.size,
      circRead 64000 r.buffer cur.data cur.size.toNat,
      { r with dstart := cur.lastSeq + 1, runs := runs }) := by
  obtain ⟨bytes, hfetch⟩ : ∃ bytes,
      fetchBytes r.buffer cur cur.size = some bytes := by
    rw [fetchBytes]
    split
    · rw [memcpyOut, if_pos (by omega), Option.bind_some, memcpyOut,
        if_pos (by omega)]
      exact ⟨_, rfl⟩
    · rw [memcpyOut, if_pos (by omega)]
      exact ⟨_, rfl⟩
  rw [RingBuffer.requestData]
  simp only [hruns]
  rw [if_pos ⟨hfilled, hfirst⟩, if_pos hsize, hfetch, Option.bind_some,
    signedInt, if_pos hlast, Option.bind_some, RingBuffer.mergeList, hmerge,
    (fetchBytes_circRead hfetch).2]
  rfl

theorem Reaches.deliver {cur : Extent} {rest runs : List Extent}
    (hreaches : Reaches payload guard r acked out) (size : ℤ)
    (hguard : ∀ t : Session, t.sbuffer.toRing = r → guard t (.requestData size))
    (hruns : r.runs = cur :: rest) (hfilled : cur.filled = true)
    (hfirst : cur.firstSeq = r.dstart) (hsize : cur.size ≤ size)
    (hcopy : 0 ≤ cur.data ∧ cur.data ≤ 64000 ∧ 0 ≤ cur.size ∧
      cur.size ≤ 64000)
    (hlast : -2147483648 ≤ cur.lastSeq + 1 ∧ cur.lastSeq + 1 ≤ 2147483647)
    (hmerge : mergeRuns (cur.lastSeq + 1)
      (rest ++ [{ cur with filled := false }]) = some runs) :
    Reaches payload guard { r with dstart := cur.lastSeq + 1, runs := runs }
      acked (out ++ circRead 64000 r.buffer cur.data cur.size.toNat) :=
  hreaches.requestData size hguard
    (requestData_whole hruns hfilled hfirst hsize hcopy hlast hmerge)

variable (payload guard) in
/-- Packet 1 arrives and is delivered; the hole it leaves stays on the ring. -/
theorem reaches_recycled
    (hadd : ∀ t : Session, t.sbuffer.toRing = RingBuffer.initHead →
      guard t (.addData 1))
    (hrequest : ∀ t : Session, t.sbuffer.toRing.runs =
        [⟨1, 1, 0, 1000, true⟩, ⟨2, 64, 1000, 63000, false⟩] →
      guard t (.requestData 1000)) :
    ∃ buffer dend out, Reaches payload guard
      { buffer := buffer, dstart := 2, dend := dend,
        runs := [⟨2, 64, 1000, 63000, false⟩, ⟨1, 1, 0, 1000, false⟩] }
      [1] out := by
  have h : Reaches payload guard RingBuffer.initHead [] [] := reaches_start
  obtain ⟨buffer, dend, -, h⟩ := h.store 1 hadd rfl (by decide) rfl
  exact ⟨buffer, dend, _, h.deliver 1000
    (fun t ht => hrequest t (congrArg RingBuffer.runs ht)) rfl rfl rfl
    (by decide) (by decide) (by decide) rfl⟩

end UdpTransfer.Receiver
