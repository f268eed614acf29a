import Mathlib.Data.Finset.Card
import UdpTransfer.Core.Threads
import UdpTransfer.Timer.DeltaList

/-!
# The cells of the delta list

`Chain s cells` says that the list of `s` is the nodes `cells`, linked both
ways.  0 stands in front of the first and behind the last: its `next` is `head`
and its `prev` is `tail`.  The times of the cells are read as a map, and a call
changes that map at a cell or two.
-/

namespace UdpTransfer.Timer

open Function
open UdpTransfer.Links

namespace Timers

/-- The `next` pointer; that of 0 is `head`. -/
def succ (s : Timers) (cell : ℕ) : ℕ :=
  if cell = 0 then s.head else (s.nodes cell).next

/-- The `prev` pointer; that of 0 is `tail`. -/
def pred (s : Timers) (cell : ℕ) : ℕ :=
  if cell = 0 then s.tail else (s.nodes cell).prev

def time (s : Timers) (cell : ℕ) : ℚ := (s.nodes cell).dtime

def num (s : Timers) (cell : ℕ) : UInt32 := (s.nodes cell).byteSeqNum

structure Chain (s : Timers) (cells : List ℕ) : Prop where
  threaded : Threaded s.succ s.pred 0 cells
  allocated : ∀ cell ∈ cells, cell < s.fresh
  fresh_pos : 0 < s.fresh

/-! ## Setting fields -/

section Fields

variable (s : Timers) (cell : ℕ)

@[simp]
theorem succ_setNode (hcell : cell ≠ 0) (node : ListNode) :
    (s.setNode cell node).succ = update s.succ cell node.next := by
  funext other
  by_cases h : other = cell
  · subst other
    simp [succ, setNode, hcell]
  · simp [succ, setNode, h]

@[simp]
theorem pred_setNode (hcell : cell ≠ 0) (node : ListNode) :
    (s.setNode cell node).pred = update s.pred cell node.prev := by
  funext other
  by_cases h : other = cell
  · subst other
    simp [pred, setNode, hcell]
  · simp [pred, setNode, h]

@[simp]
theorem time_setNode (node : ListNode) :
    (s.setNode cell node).time = update s.time cell node.dtime := by
  funext other
  by_cases h : other = cell
  · subst other
    simp [time, setNode]
  · simp [time, setNode, h]

@[simp]
theorem num_setNode (node : ListNode) :
    (s.setNode cell node).num = update s.num cell node.byteSeqNum := by
  funext other
  by_cases h : other = cell
  · subst other
    simp [num, setNode]
  · simp [num, setNode, h]

@[simp]
theorem succ_setNext (hcell : cell ≠ 0) (next : ℕ) :
    (s.setNext cell next).succ = update s.succ cell next :=
  succ_setNode s cell hcell _

@[simp]
theorem pred_setNext (next : ℕ) : (s.setNext cell next).pred = s.pred := by
  funext other
  by_cases h : other = cell
  · subst other
    simp [pred, setNext, setNode]
  · simp [pred, setNext, setNode, h]

@[simp]
theorem time_setNext (next : ℕ) : (s.setNext cell next).time = s.time := by
  rw [setNext, time_setNode]
  exact update_eq_self cell s.time

@[simp]
theorem num_setNext (next : ℕ) : (s.setNext cell next).num = s.num := by
  rw [setNext, num_setNode]
  exact update_eq_self cell s.num

@[simp]
theorem succ_setPrev (prev : ℕ) : (s.setPrev cell prev).succ = s.succ := by
  funext other
  by_cases h : other = cell
  · subst other
    simp [succ, setPrev, setNode]
  · simp [succ, setPrev, setNode, h]

@[simp]
theorem pred_setPrev (hcell : cell ≠ 0) (prev : ℕ) :
    (s.setPrev cell prev).pred = update s.pred cell prev :=
  pred_setNode s cell hcell _

@[simp]
theorem time_setPrev (prev : ℕ) : (s.setPrev cell prev).time = s.time := by
  rw [setPrev, time_setNode]
  exact update_eq_self cell s.time

@[simp]
theorem num_setPrev (prev : ℕ) : (s.setPrev cell prev).num = s.num := by
  rw [setPrev, num_setNode]
  exact update_eq_self cell s.num

@[simp]
theorem succ_setDtime (dtime : ℚ) : (s.setDtime cell dtime).succ = s.succ := by
  funext other
  by_cases h : other = cell
  · subst other
    simp [succ, setDtime, setNode]
  · simp [succ, setDtime, setNode, h]

@[simp]
theorem pred_setDtime (dtime : ℚ) : (s.setDtime cell dtime).pred = s.pred := by
  funext other
  by_cases h : other = cell
  · subst other
    simp [pred, setDtime, setNode]
  · simp [pred, setDtime, setNode, h]

@[simp]
theorem time_setDtime (dtime : ℚ) :
    (s.setDtime cell dtime).time = update s.time cell dtime :=
  time_setNode s cell _

@[simp]
theorem num_setDtime (dtime : ℚ) : (s.setDtime cell dtime).num = s.num := by
  rw [setDtime, num_setNode]
  exact update_eq_self cell s.num

@[simp]
theorem fresh_setNext (next : ℕ) : (s.setNext cell next).fresh = s.fresh := rfl

@[simp]
theorem fresh_setPrev (prev : ℕ) : (s.setPrev cell prev).fresh = s.fresh := rfl

@[simp]
theorem fresh_setDtime (dtime : ℚ) : (s.setDtime cell dtime).fresh = s.fresh :=
  rfl

/-- Setting `head` sets the `next` pointer of 0. -/
theorem succ_setHead (head : ℕ) :
    { s with head := head }.succ = update s.succ 0 head := by
  funext other
  by_cases h : other = 0
  · subst other
    simp [succ]
  · simp [succ, h]

/-- Setting `tail` sets the `prev` pointer of 0. -/
theorem pred_setTail (tail : ℕ) :
    { s with tail := tail }.pred = update s.pred 0 tail := by
  funext other
  by_cases h : other = 0
  · subst other
    simp [pred]
  · simp [pred, h]

theorem pred_setHead (head : ℕ) : { s with head := head }.pred = s.pred := rfl

theorem succ_setTail (tail : ℕ) : { s with tail := tail }.succ = s.succ := rfl

theorem time_setHead (head : ℕ) : { s with head := head }.time = s.time := rfl

theorem time_setTail (tail : ℕ) : { s with tail := tail }.time = s.time := rfl

theorem num_setHead (head : ℕ) : { s with head := head }.num = s.num := rfl

theorem num_setTail (tail : ℕ) : { s with tail := tail }.num = s.num := rfl

end Fields

/-! ## Reading the list -/

theorem Chain.ne_zero {s : Timers} {cells : List ℕ} (hchain : Chain s cells)
    {cell : ℕ} (hcell : cell ∈ cells) : cell ≠ 0 := by
  rintro rfl
  exact (List.nodup_cons.1 hchain.threaded.nodup).1 hcell

theorem Chain.head_eq {s : Timers} {cells : List ℕ} (hchain : Chain s cells) :
    s.head = cells.headD 0 := by
  have hforward := hchain.threaded.forward
  cases cells with
  | nil => exact hforward
  | cons first rest => exact hforward.1

theorem Chain.head_mem {s : Timers} {cells : List ℕ} (hchain : Chain s cells)
    (hcells : cells ≠ []) : s.head ∈ cells := by
  rw [hchain.head_eq]
  cases cells with
  | nil => exact absurd rfl hcells
  | cons first rest => exact List.mem_cons_self

/-- The pointers of a cell of the list. -/
theorem Chain.at_cell {s : Timers} {before after : List ℕ} {cell : ℕ}
    (hchain : Chain s (before ++ cell :: after)) :
    (s.nodes cell).prev = before.getLastD 0 ∧
      (s.nodes cell).next = after.headD 0 := by
  have hcell : cell ≠ 0 := hchain.ne_zero (by simp)
  have hends := hchain.threaded.at_cell
  rwa [pred, succ, if_neg hcell, if_neg hcell] at hends

theorem Chain.getLastD_eq_zero {s : Timers} {before after : List ℕ}
    (hchain : Chain s (before ++ after)) :
    before.getLastD 0 = 0 ↔ before = [] := by
  rcases List.eq_nil_or_concat before with rfl | ⟨front, last, rfl⟩
  · simp
  · have hlast : last ≠ 0 := hchain.ne_zero (by simp)
    simp [hlast]

theorem Chain.setDtime {s : Timers} {cells : List ℕ} (hchain : Chain s cells)
    (cell : ℕ) (dtime : ℚ) : Chain (s.setDtime cell dtime) cells := by
  refine ⟨?_, hchain.allocated, hchain.fresh_pos⟩
  rw [succ_setDtime, pred_setDtime]
  exact hchain.threaded

theorem chain_start : Chain start [] := by
  refine ⟨⟨?_, List.nodup_singleton 0⟩, by simp, Nat.one_pos⟩
  exact List.isChain_pair.2 ⟨rfl, rfl⟩

theorem Chain.nodup {s : Timers} {cells : List ℕ} (hchain : Chain s cells) :
    cells.Nodup :=
  (List.nodup_cons.1 hchain.threaded.nodup).2

/-- The walk along `next`, over at most `fuel` cells. -/
def walk (s : Timers) : ℕ → ℕ → List ℕ
  | 0, _ => []
  | fuel + 1, cell =>
      if cell = 0 then [] else cell :: s.walk fuel (s.nodes cell).next

/-- The cells of the list. -/
def cells (s : Timers) : List ℕ := s.walk s.fresh s.head

theorem Chain.walk_eq {s : Timers} {after : List ℕ} :
    ∀ {before : List ℕ} {fuel : ℕ}, Chain s (before ++ after) →
      after.length < fuel → s.walk fuel (after.headD 0) = after := by
  induction after with
  | nil =>
      intro before fuel _ hfuel
      cases fuel with
      | zero => rfl
      | succ fuel => rfl
  | cons cell rest ih =>
      intro before fuel hchain hfuel
      cases fuel with
      | zero => simp at hfuel
      | succ fuel =>
          have hcell : cell ≠ 0 := hchain.ne_zero (by simp)
          have hnext : (s.nodes cell).next = rest.headD 0 := hchain.at_cell.2
          have hchain' : Chain s ((before ++ [cell]) ++ rest) := by
            simpa using hchain
          rw [List.headD_cons, walk, if_neg hcell, hnext, ih hchain']
          rw [List.length_cons] at hfuel
          exact Nat.lt_of_succ_lt_succ hfuel

theorem Chain.cells_eq {s : Timers} {cells : List ℕ} (hchain : Chain s cells) :
    s.cells = cells := by
  have hlength : cells.length < s.fresh := by
    have hsub : (0 :: cells).toFinset ⊆ Finset.range s.fresh := by
      intro cell hcell
      rw [List.mem_toFinset, List.mem_cons] at hcell
      rw [Finset.mem_range]
      rcases hcell with rfl | hcell
      · exact hchain.fresh_pos
      · exact hchain.allocated cell hcell
    have hcard := Finset.card_le_card hsub
    rwa [List.toFinset_card_of_nodup hchain.threaded.nodup, Finset.card_range]
      at hcard
  rw [Timers.cells, hchain.head_eq]
  exact @Chain.walk_eq s cells [] s.fresh hchain hlength

/-! ## Times -/

/-- The sum of the times of some cells. -/
def span (time : ℕ → ℚ) (cells : List ℕ) : ℚ := (cells.map time).sum

@[simp]
theorem span_nil (time : ℕ → ℚ) : span time [] = 0 := rfl

theorem span_cons (time : ℕ → ℚ) (cell : ℕ) (rest : List ℕ) :
    span time (cell :: rest) = time cell + span time rest := by
  simp [span]

theorem add_span_cons (time : ℕ → ℚ) (base : ℚ) (cell : ℕ) (rest : List ℕ) :
    base + span time (cell :: rest) = base + time cell + span time rest := by
  rw [span_cons, add_assoc]

theorem span_congr {time time' : ℕ → ℚ} {cells : List ℕ}
    (htime : ∀ cell ∈ cells, time' cell = time cell) :
    span time' cells = span time cells := by
  rw [span, span, List.map_congr_left htime]

theorem span_concat (time : ℕ → ℚ) (cells : List ℕ) (cell : ℕ) :
    span time (cells ++ [cell]) = span time cells + time cell := by
  simp [span]

/-- Adds to the time of the first of some cells. -/
def shift (time : ℕ → ℚ) (cells : List ℕ) (amount : ℚ) : ℕ → ℚ :=
  match cells with
  | [] => time
  | first :: _ => update time first (time first + amount)

theorem shift_shift (time : ℕ → ℚ) (cells : List ℕ) (a b : ℚ) :
    shift (shift time cells a) cells b = shift time cells (a + b) := by
  cases cells with
  | nil => rfl
  | cons first rest =>
      rw [shift, shift, shift, update_self, update_idem, add_assoc]

theorem shift_of_notMem (time : ℕ → ℚ) {cells : List ℕ} (amount : ℚ) {cell : ℕ}
    (hcell : cell ∉ cells) : shift time cells amount cell = time cell := by
  cases cells with
  | nil => rfl
  | cons first rest =>
      rw [shift, update_of_ne]
      rintro rfl
      exact hcell List.mem_cons_self

/-- Time added to the first of some cells changes none of the others. -/
theorem shift_tail (time : ℕ → ℚ) {first : ℕ} {rest : List ℕ} (amount : ℚ)
    (hnodup : (first :: rest).Nodup) :
    ∀ other ∈ rest, shift time (first :: rest) amount other = time other := by
  intro other hother
  rw [shift, update_of_ne]
  rintro rfl
  exact (List.nodup_cons.1 hnodup).1 hother

/-! ## Numbers -/

/-- The timers of some cells, each with its number. -/
def entries (s : Timers) (cells : List ℕ) : List (ℕ × UInt32) :=
  cells.map fun cell => (cell, s.num cell)

end Timers

end UdpTransfer.Timer
