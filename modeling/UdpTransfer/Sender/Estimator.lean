import Mathlib.Tactic.Positivity
import Mathlib.Tactic.Ring
import UdpTransfer.Sender.Finality

/-!
# The round-trip estimate

Each acknowledgement gives `timeComps` a sample of the round-trip time.  Its
weights are integer quotients, so that the first sample sets the estimate once
and for all: what the formulas say of the later ones holds for none of them.
-/

namespace UdpTransfer.Sender

open CBuffer

/-! ## The samples of a session -/

def CBuffer.estimate (s : CBuffer) : ℚ × ℚ × ℚ := (s.srtt, s.rttvar, s.rto)

namespace Session

/-- The samples that a call passes to `timeComps`. -/
def sample (t : Session) : Call → List ℚ
  | .recvACK num stop =>
      let slot := t.cbuffer.packtimes.findIdx? fun slot => slot.bsn = num
      (slot.map fun i => elapsed
        ((t.cbuffer.packtimes[i]?.map RttPack.timestart).getD ⟨0, 0⟩)
        stop).toList
  | _ => []

def samples (t : Session) : List Call → List ℚ
  | [] => []
  | c :: calls =>
      t.sample c ++ (t.call c).elim [] fun t' => t'.samples calls

end Session

section

variable {s s' : CBuffer} {delta : ℚ}

theorem timeComps_of_zero (hsrtt : s.srtt = 0) (hrttvar : s.rttvar = 0) :
    (s.timeComps delta).estimate = (delta, delta / 2, s.rto) := by
  simp [timeComps, estimate, hsrtt, hrttvar]

/-- Both weights of a further sample are 0. -/
theorem timeComps_of_ne_zero (hsrtt : s.srtt ≠ 0) (hrttvar : s.rttvar ≠ 0) :
    (s.timeComps delta).estimate =
      (s.srtt, s.rttvar, s.srtt + 4 * s.rttvar) := by
  simp [timeComps, estimate, hsrtt, hrttvar]

theorem estimate_timeComps (hsame : s'.estimate = s.estimate) :
    (s'.timeComps delta).estimate = (s.timeComps delta).estimate := by
  simp only [estimate, Prod.mk.injEq] at hsame
  obtain ⟨hsrtt, hrttvar, hrto⟩ := hsame
  simp only [timeComps, hsrtt]
  split_ifs <;> simp_all [estimate]

theorem estimate_foldl_congr {samples : List ℚ}
    (hsame : s'.estimate = s.estimate) :
    (samples.foldl timeComps s').estimate =
      (samples.foldl timeComps s).estimate := by
  induction samples generalizing s s' with
  | nil => exact hsame
  | cons delta samples ih => exact ih (estimate_timeComps hsame)

/-! ## What else keeps the estimate -/

theorem estimate_fillWindow (hfill : s.fillWindow = some s') :
    s'.estimate = s.estimate := by
  rw [fillWindow, spaceLeft_eq] at hfill
  dsimp only at hfill
  revert hfill
  generalize (if 64000 - (64000 - used s) ≥ 20000 then _ else _) = windowend
  intro hfill
  split at hfill
  · rw [Option.map_eq_some_iff] at hfill
    obtain ⟨⟨new, packseq⟩, -, rfl⟩ := hfill
    rfl
  · cases hfill
    rfl

theorem estimate_checkWindow {freed : List PackNode}
    (hcheck : s.checkWindow = some (freed, s')) : s'.estimate = s.estimate := by
  rw [checkWindow, freeAcked_eq] at hcheck
  dsimp only at hcheck
  rw [Option.map_eq_some_iff] at hcheck
  obtain ⟨filled, hfill, heq⟩ := hcheck
  cases heq
  exact (estimate_fillWindow hfill).trans rfl

theorem estimate_store {data : List UInt8} {size : ℤ}
    (hstore : s.store data size = some s') : s'.estimate = s.estimate := by
  rw [store] at hstore
  split at hstore
  · rw [Option.map_eq_some_iff] at hstore
    obtain ⟨cirbuffer, -, rfl⟩ := hstore
    rfl
  · rw [Option.bind_eq_some_iff] at hstore
    obtain ⟨cirbuffer, -, hstore⟩ := hstore
    rw [Option.map_eq_some_iff] at hstore
    obtain ⟨cirbuffer', -, rfl⟩ := hstore
    rfl

theorem estimate_addData {data : List UInt8} {size result : ℤ}
    {freed : List PackNode}
    (hadd : s.addData data size = some (result, freed, s')) :
    s'.estimate = s.estimate := by
  rw [CBuffer.addData, spaceLeft_eq] at hadd
  dsimp only at hadd
  split at hadd
  · rw [Option.bind_eq_some_iff] at hadd
    obtain ⟨stored, hstore, hadd⟩ := hadd
    rw [Option.map_eq_some_iff] at hadd
    obtain ⟨⟨freed', s''⟩, hcheck, heq⟩ := hadd
    cases heq
    have hstored := estimate_store hstore
    exact (estimate_checkWindow hcheck).trans hstored
  · rw [Option.map_eq_some_iff] at hadd
    obtain ⟨⟨freed', s''⟩, hcheck, heq⟩ := hadd
    cases heq
    exact (estimate_checkWindow hcheck).trans rfl

theorem estimate_sendAt {clock : ℕ → Timespec} {sents sents' : List Sent}
    {i : ℕ} (hsend : sendAt clock (sents, s) i = some (sents', s')) :
    s'.estimate = s.estimate := by
  rw [sendAt] at hsend
  split at hsend
  · cases hsend
    rfl
  · split at hsend
    · cases hsend
      rfl
    · rw [Option.map_eq_some_iff] at hsend
      obtain ⟨⟨sent, s''⟩, hnode, heq⟩ := hsend
      cases heq
      rw [sendNode, Option.bind_eq_some_iff] at hnode
      obtain ⟨⟨data, nodes⟩, -, hnode⟩ := hnode
      dsimp only at hnode
      split at hnode
      · rw [Option.map_eq_some_iff] at hnode
        obtain ⟨slot, -, heq⟩ := hnode
        cases heq
        rfl
      · cases hnode

theorem estimate_foldlM_sendAt {clock : ℕ → Timespec} {places : List ℕ}
    {sents sents' : List Sent}
    (hsend : places.foldlM (sendAt clock) (sents, s) = some (sents', s')) :
    s'.estimate = s.estimate := by
  induction places generalizing sents s with
  | nil =>
      cases hsend
      rfl
  | cons i places ih =>
      rw [List.foldlM_cons, Option.bind_eq_bind, Option.bind_eq_some_iff] at hsend
      obtain ⟨⟨mids, mid⟩, hat, hrest⟩ := hsend
      exact (ih hrest).trans (estimate_sendAt hat)

/-- `recvACK` passes one sample on. -/
theorem estimate_recvACK {num result : ℤ} {stop : Timespec}
    {freed : List PackNode} {t : Session} (ht : t.cbuffer = s)
    (hrecv : s.recvACK num stop = some (result, freed, s')) :
    s'.estimate =
      ((t.sample (.recvACK num stop)).foldl timeComps s).estimate := by
  rw [recvACK, Option.bind_eq_some_iff] at hrecv
  obtain ⟨i, hslot, hrecv⟩ := hrecv
  simp only [Session.sample, ht, hslot, Option.map_some, Option.toList_some,
    List.foldl_cons, List.foldl_nil]
  dsimp only at hrecv
  split at hrecv
  · rw [Option.map_eq_some_iff] at hrecv
    obtain ⟨⟨freed', s''⟩, hcheck, heq⟩ := hrecv
    cases heq
    exact (estimate_checkWindow hcheck).trans rfl
  · cases hrecv
    rfl

end

/-! ## Calls and sessions -/

theorem call_estimate {t t' : Session} {c : Call} (hcall : t.call c = some t') :
    t'.cbuffer.estimate =
      ((t.sample c).foldl timeComps t.cbuffer).estimate := by
  cases c with
  | addData chunk =>
      rw [Session.call, Option.map_eq_some_iff] at hcall
      obtain ⟨⟨result, freed, s⟩, hadd, rfl⟩ := hcall
      exact estimate_addData hadd
  | sendWindow clock =>
      rw [Session.call, Option.map_eq_some_iff] at hcall
      obtain ⟨⟨sents, s⟩, hsend, rfl⟩ := hcall
      exact estimate_foldlM_sendAt hsend
  | recvACK num stop =>
      rw [Session.call, Option.map_eq_some_iff] at hcall
      obtain ⟨⟨result, freed, s⟩, hrecv, rfl⟩ := hcall
      exact estimate_recvACK rfl hrecv
  | timerExpire bsn =>
      cases hcall
      rfl

/-- The estimate of a session is that of its samples. -/
theorem run_estimate {calls : List Call} {t t' : Session}
    (hrun : t.run calls = some t') :
    t'.cbuffer.estimate =
      ((t.samples calls).foldl timeComps t.cbuffer).estimate := by
  induction calls generalizing t with
  | nil =>
      cases hrun
      rfl
  | cons c calls ih =>
      rw [Session.run, List.foldlM_cons, Option.bind_eq_bind,
        Option.bind_eq_some_iff] at hrun
      obtain ⟨mid, hcall, hrest⟩ := hrun
      rw [ih hrest, Session.samples, hcall, List.foldl_append]
      exact estimate_foldl_congr (call_estimate hcall)

/-! ## Samples one after the other -/

/-- The estimate is the one that the first sample gave. -/
theorem estimate_samples {first : ℚ} (hfirst : 0 < first) (further : List ℚ) :
    ((first :: further).foldl timeComps CBuffer.start).estimate =
      (first, first / 2, if further = [] then 1000 else 3 * first) := by
  have hnonzero : first / 2 ≠ 0 := by positivity
  induction further using List.reverseRecOn with
  | nil =>
      rw [if_pos rfl]
      exact @timeComps_of_zero CBuffer.start first rfl rfl
  | append_singleton further delta ih =>
      rw [← List.cons_append, List.foldl_append, List.foldl_cons,
        List.foldl_nil]
      simp only [estimate, Prod.mk.injEq] at ih
      obtain ⟨hsrtt, hrttvar, -⟩ := ih
      rw [timeComps_of_ne_zero (by rw [hsrtt]; exact hfirst.ne')
        (by rw [hrttvar]; exact hnonzero), hsrtt, hrttvar, if_neg (by simp)]
      congr 2
      ring

/-- In a session, too, the smoothed time stays at its first sample. -/
theorem run_srtt {calls : List Call} {t : Session} {first : ℚ}
    {further : List ℚ} (hrun : Session.start.run calls = some t)
    (hsamples : Session.start.samples calls = first :: further)
    (hfirst : 0 < first) : t.cbuffer.srtt = first := by
  have hestimate := run_estimate hrun
  rw [hsamples] at hestimate
  exact congrArg Prod.fst (hestimate.trans (estimate_samples hfirst further))

/-- What the formulas say of one more sample. -/
structure Averaged (s : CBuffer) (delta : ℚ) (s' : CBuffer) : Prop where
  srtt_eq : s'.srtt = 7 / 8 * s.srtt + 1 / 8 * delta
  rttvar_eq : s'.rttvar = 3 / 4 * s.rttvar + 1 / 4 * |s'.srtt - delta|
  rto_eq : s'.rto = s'.srtt + 4 * s'.rttvar

/-- From a fresh process on, the formulas hold for every sample behind the
first. -/
def MovingAverage (samples : List ℚ) : Prop :=
  ∀ before delta after, samples = before ++ delta :: after → before ≠ [] →
    Averaged (before.foldl timeComps CBuffer.start) delta
      ((before ++ [delta]).foldl timeComps CBuffer.start)

/-- A further sample would have to equal the first for the smoothed time, and to
differ from it for the variation. -/
theorem not_averaged {first delta : ℚ} (hfirst : 0 < first)
    (further : List ℚ) :
    ¬ Averaged ((first :: further).foldl timeComps CBuffer.start) delta
      ((first :: further ++ [delta]).foldl timeComps CBuffer.start) := by
  rintro ⟨hsrtt, hrttvar, -⟩
  have hold := estimate_samples hfirst further
  have hnew := estimate_samples hfirst (further ++ [delta])
  rw [← List.cons_append] at hnew
  simp only [estimate, Prod.mk.injEq] at hold hnew
  rw [hold.1, hnew.1] at hsrtt
  rw [hold.2.1, hnew.2.1, hnew.1] at hrttvar
  obtain rfl : delta = first := by linarith
  rw [sub_self, abs_zero] at hrttvar
  linarith

/-- The formulas hold only where there is no further sample. -/
theorem movingAverage_iff {samples : List ℚ}
    (hpos : ∀ delta ∈ samples, 0 < delta) :
    MovingAverage samples ↔ samples.length ≤ 1 := by
  constructor
  · intro haverage
    rcases samples with _ | ⟨first, _ | ⟨delta, after⟩⟩
    · simp
    · simp
    · refine absurd (haverage [first] delta after rfl (by simp)) ?_
      exact not_averaged (hpos first (by simp)) []
  · rintro hlength before delta after rfl hbefore
    have := List.length_pos_iff.2 hbefore
    simp only [List.length_append, List.length_cons] at hlength
    omega

theorem movingAverage_equal : ¬ MovingAverage [100, 100] :=
  fun haverage => absurd ((@movingAverage_iff [100, 100] (by simp)).1 haverage)
    (by simp)

theorem not_movingAverage :
    ¬ ∀ samples : List ℚ, (∀ delta ∈ samples, 0 < delta) →
      MovingAverage samples := by
  intro hall
  have haverage := hall [100, 200] (by simp)
  exact not_averaged (by norm_num) [] (haverage [100] 200 [] rfl (by simp))

end UdpTransfer.Sender
