import Mathlib.Data.List.Perm.Basic
import UdpTransfer.Core.Runs
import UdpTransfer.Timer.Insertion
import UdpTransfer.Timer.Expiration

/-!
# No timer is lost or duplicated

A ledger records, beside the timers themselves, every timer that was inserted,
every timer that a request took out, and every notice that was sent.  A timer is
entered under the address of its node, with its number.  After any sequence of
calls the books balance.
-/

namespace UdpTransfer.Timer

open Function
open UdpTransfer.Links
open UdpTransfer.Runs

structure Ledger where
  timers : Timers
  inserted : List (ℕ × UInt32)
  /-- The nodes freed by requests, each with the number asked for. -/
  deleted : List (ℕ × UInt32)
  notices : List Notice

inductive Call where
  | insertValue (dtime : ℚ) (port : ℤ) (byteSeqNum : UInt32)
  | removeValue (byteSeqNum : UInt32)
  | decrement (prev now : ℚ)

def Notice.entry (n : Notice) : ℕ × UInt32 := (n.timer, n.byteSeqNum)

namespace Ledger

def start : Ledger where
  timers := Timers.start
  inserted := []
  deleted := []
  notices := []

def call (t : Ledger) : Call → Option Ledger
  | .insertValue dtime port byteSeqNum =>
      (t.timers.insertValue dtime port byteSeqNum).map fun s =>
        { t with
          timers := s
          inserted := t.inserted ++ [(t.timers.fresh, byteSeqNum)] }
  | .removeValue byteSeqNum =>
      (t.timers.removeValue byteSeqNum).map fun (_, freed, s) =>
        { t with
          timers := s
          deleted := t.deleted ++ freed.toList.map fun cell =>
            (cell, byteSeqNum) }
  | .decrement prev now =>
      (t.timers.decrement prev now).map fun (notices, s) =>
        { t with
          timers := s
          notices := t.notices ++ notices }

end Ledger

def ledger : System Ledger Call where
  initial t := t = Ledger.start
  step t c t' := t.call c = some t'

/-- The list is `cells`, and it makes up what the requests and the notices have
left of the timers inserted. -/
structure Balanced (t : Ledger) (cells : List ℕ) : Prop where
  chain : t.timers.Chain cells
  balance : (t.timers.entries cells ++ t.deleted ++
    t.notices.map Notice.entry).Perm t.inserted
  known : ∀ entry ∈ t.inserted, entry.1 < t.timers.fresh
  nodup : (t.inserted.map Prod.fst).Nodup
  freed : ∀ n ∈ t.notices, n.freed = some n.timer

theorem balanced_start : Balanced Ledger.start [] := by
  refine ⟨Timers.chain_start, .refl _, ?_, List.nodup_nil, ?_⟩
  · exact fun entry hentry => absurd hentry List.not_mem_nil
  · exact fun n hn => absurd hn List.not_mem_nil

/-! ## One call -/

theorem Balanced.insertValue {t : Ledger} {before after : List ℕ}
    {byteSeqNum : UInt32} {delta : ℚ} {s : Timers}
    (hbalanced : Balanced t (before ++ after))
    (hinserted : t.timers.Inserted before after byteSeqNum delta s) :
    Balanced { t with
        timers := s
        inserted := t.inserted ++ [(t.timers.fresh, byteSeqNum)] }
      (before ++ t.timers.fresh :: after) := by
  have hentries := hinserted.entries hbalanced.chain
  refine ⟨hinserted.chain, ?_, ?_, ?_, hbalanced.freed⟩
  · exact ((hentries.append_right _).append_right _).trans
      ((hbalanced.balance.cons _).trans (List.perm_append_singleton _ _).symm)
  · intro entry hentry
    rw [hinserted.fresh]
    rw [List.mem_append, List.mem_singleton] at hentry
    rcases hentry with hentry | rfl
    · exact (hbalanced.known entry hentry).trans (Nat.lt_succ_self _)
    · exact Nat.lt_succ_self _
  · rw [List.map_append, List.map_singleton, List.nodup_append]
    refine ⟨hbalanced.nodup, List.nodup_singleton _, ?_⟩
    intro address haddress other hother
    rw [List.mem_map] at haddress
    obtain ⟨entry, hentry, rfl⟩ := haddress
    rw [List.mem_singleton] at hother
    rw [hother]
    exact (hbalanced.known entry hentry).ne

theorem Balanced.removeValue {t : Ledger} {before after : List ℕ} {cell : ℕ}
    {s : Timers} (hbalanced : Balanced t (before ++ cell :: after))
    (hremoved : t.timers.Removed before cell after s) :
    Balanced { t with
        timers := s
        deleted := t.deleted ++ [(cell, t.timers.num cell)] }
      (before ++ after) := by
  refine ⟨hremoved.chain, ?_, ?_, hbalanced.nodup, hbalanced.freed⟩
  · refine List.Perm.trans ?_ hbalanced.balance
    refine List.Perm.trans ?_
      ((hremoved.entries.append_right t.deleted).append_right _).symm
    rw [← List.append_assoc, List.append_assoc _ [_], List.singleton_append]
    exact List.perm_middle
  · rw [hremoved.fresh]
    exact hbalanced.known

theorem Balanced.expired {t : Ledger} {cell : ℕ} {rest : List ℕ} {s : Timers}
    (hbalanced : Balanced t (cell :: rest))
    (hexpired : t.timers.Expired cell rest s) :
    Balanced { t with
        timers := s
        notices := t.notices ++ [t.timers.notice cell] } rest := by
  refine ⟨hexpired.chain, ?_, ?_, hbalanced.nodup, ?_⟩
  · refine List.Perm.trans ?_ hbalanced.balance
    rw [List.map_append, ← List.append_assoc, hexpired.entries]
    exact List.perm_append_singleton (t.timers.notice cell).entry _
  · rw [hexpired.fresh]
    exact hbalanced.known
  · intro n hn
    rw [List.mem_append, List.mem_singleton] at hn
    rcases hn with hn | rfl
    · exact hbalanced.freed n hn
    · rfl

theorem Balanced.decrement {t : Ledger} {cells : List ℕ} {prev now : ℚ}
    {notices : List Notice} {s : Timers} (hbalanced : Balanced t cells)
    (hdecrement : t.timers.decrement prev now = some (notices, s)) :
    ∃ cells', Balanced { t with
      timers := s
      notices := t.notices ++ notices } cells' := by
  have hrule := Timers.decrement_rule
    (I := fun sent s cells =>
      Balanced { t with timers := s, notices := t.notices ++ sent } cells)
    hbalanced.chain ?_ ?_ hdecrement
  · obtain ⟨cells', -, hbalanced'⟩ := hrule
    exact ⟨cells', hbalanced'⟩
  · intro s hchain hfresh hnum _
    refine ⟨hchain, ?_, ?_, hbalanced.nodup, ?_⟩
    · rw [List.append_nil, Timers.entries, hnum]
      exact hbalanced.balance
    · rw [hfresh]
      exact hbalanced.known
    · rw [List.append_nil]
      exact hbalanced.freed
  · intro sent s cell rest s' _ hbalanced' hexpired
    have hnext := hbalanced'.expired hexpired
    rwa [List.append_assoc] at hnext

theorem Balanced.call {t t' : Ledger} {c : Call} {cells : List ℕ}
    (hbalanced : Balanced t cells) (hcall : t.call c = some t') :
    ∃ cells', Balanced t' cells' := by
  cases c with
  | insertValue dtime port byteSeqNum =>
      obtain ⟨s, before, after, delta, hinsert, rfl, hinserted, -⟩ :=
        Timers.insertValue_spec hbalanced.chain dtime port byteSeqNum
      rw [Ledger.call, hinsert, Option.map_some, Option.some.injEq] at hcall
      subst hcall
      exact ⟨_, hbalanced.insertValue hinserted⟩
  | removeValue byteSeqNum =>
      rw [Ledger.call, Option.map_eq_some_iff] at hcall
      obtain ⟨⟨result, freed, s⟩, hremove, rfl⟩ := hcall
      rcases Timers.removeValue_spec hbalanced.chain hremove with
        ⟨rfl, rfl, -⟩ | ⟨before, cell, after, rfl, -, rfl, rfl, hremoved⟩
      · refine ⟨cells, ?_⟩
        simpa using hbalanced
      · exact ⟨_, hbalanced.removeValue hremoved⟩
  | decrement prev now =>
      rw [Ledger.call, Option.map_eq_some_iff] at hcall
      obtain ⟨⟨notices, s⟩, hdecrement, rfl⟩ := hcall
      exact hbalanced.decrement hdecrement

/-! ## All runs -/

theorem balanced_reachable {t : Ledger} (hreach : ledger.Reachable t) :
    ∃ cells, Balanced t cells := by
  refine hreach.invariant (I := fun t => ∃ cells, Balanced t cells) ?_ ?_
  · rintro t rfl
    exact ⟨[], balanced_start⟩
  · rintro t c t' ⟨cells, hbalanced⟩ hcall
    exact hbalanced.call hcall

/-- Every timer inserted is accounted for once, under its number: it is in the
list, or a request took it out, or a notice was sent and its node freed. -/
structure Accounted (t : Ledger) (cells : List ℕ) : Prop where
  forward :
    Segment (fun cell => (t.timers.nodes cell).next) t.timers.head cells 0
  backward :
    Segment (fun cell => (t.timers.nodes cell).prev) t.timers.tail
      cells.reverse 0
  nodup : (0 :: cells).Nodup
  distinct : (t.inserted.map Prod.fst).Nodup
  balance :
    (cells.map (fun cell => (cell, (t.timers.nodes cell).byteSeqNum)) ++
      t.deleted ++ t.notices.map fun n => (n.timer, n.byteSeqNum)).Perm
        t.inserted
  freed : ∀ n ∈ t.notices, n.freed = some n.timer
  absent : ∀ byteSeqNum,
    (∀ cell ∈ cells, (t.timers.nodes cell).byteSeqNum ≠ byteSeqNum) →
      t.call (.removeValue byteSeqNum) = some t

/-- In any state that calls can reach, `next` leads from `head` through some
nodes to `NULL`, `prev` leads from `tail` back through the same, and these nodes
are the timers that neither a request nor a notice has used up. -/
theorem timers_accounted (t : Ledger) (hreach : ledger.Reachable t) :
    ∃ cells, Accounted t cells := by
  obtain ⟨cells, hbalanced⟩ := balanced_reachable hreach
  have hthreaded := hbalanced.chain.threaded
  have hne : ∀ cell ∈ cells, cell ≠ 0 := fun cell => hbalanced.chain.ne_zero
  refine ⟨cells, ?_, ?_, hthreaded.nodup, hbalanced.nodup, hbalanced.balance,
    hbalanced.freed, ?_⟩
  · refine hthreaded.forward.congr fun cell hcell => ?_
    rw [Timers.succ, if_neg (hne cell hcell)]
  · refine hthreaded.backward.congr fun cell hcell => ?_
    rw [Timers.pred, if_neg (hne cell (List.mem_reverse.1 hcell))]
  · intro byteSeqNum habsent
    obtain ⟨result, hremove⟩ :=
      Timers.removeValue_absent hbalanced.chain habsent
    rw [Ledger.call, hremove]
    simp

/-- One timer that runs out, one that is cancelled, one that stays. -/
theorem timers_accounted_each :
    ∃ t, ledger.Reachable t ∧ t.inserted = [(1, 7), (2, 5), (3, 5)] ∧
      t.deleted = [(2, 5)] ∧ t.notices = [⟨1, 7, some 1⟩] ∧
      ∃ cells, Accounted t cells := by
  have hinsert : ledger.Reachable _ :=
    .step (l := .insertValue 2 0 7) (.initial rfl) rfl
  have hexpire : ledger.Reachable _ :=
    hinsert.step (l := .decrement 0 2) (by
      change Ledger.call _ _ = _
      simp [Ledger.call, Ledger.start, Timers.start, Timers.setNode,
        Timers.setDtime, Timers.decrement, Timers.expireHead,
        Timers.removeValue, Timers.find, Timers.unlinkNode]
      rfl)
  have hinsert' : ledger.Reachable _ :=
    hexpire.step (l := .insertValue 1 0 5) rfl
  have hremove : ledger.Reachable _ :=
    hinsert'.step (l := .removeValue 5) (by
      change Ledger.call _ _ = _
      simp [Ledger.call, Timers.setNode, Timers.removeValue, Timers.find,
        Timers.unlinkNode]
      rfl)
  have hlast : ledger.Reachable _ :=
    hremove.step (l := .insertValue 1 0 5) rfl
  exact ⟨_, hlast, rfl, rfl, rfl, timers_accounted _ hlast⟩

end UdpTransfer.Timer
