import Mathlib.Data.List.Basic

/-! # One standard signal

    What the kernel keeps for a process about one standard signal whose default
    action is to terminate: whether it is blocked, and a single pending bit.
    Signals that arrive while the bit is set merge with the one that set it.

    The bit carries who set it, and the record keeps the senders of all signals
    sent and taken; the kernel's decisions never look at them.
-/

namespace Signal

structure Process (Sender : Type*) where
  blocked : Bool
  pending : Option Sender
  /-- The default action was taken. -/
  terminated : Bool
  /-- Senders of the signals sent to the process, oldest first. -/
  sent : List Sender
  /-- Senders of the signals its `sigwait` consumed, oldest first. -/
  taken : List Sender

variable {Sender : Type*}

namespace Process

/-- A process that no signal was sent to. -/
def quiet (blocked : Bool) : Process Sender :=
  { blocked, pending := none, terminated := false, sent := [], taken := [] }

/-- `sigprocmask(SIG_BLOCK, ..)`. -/
def block (p : Process Sender) : Process Sender := { p with blocked := true }

/-- The mask is inherited, pending signals are not. -/
def fork (p : Process Sender) : Process Sender := quiet p.blocked

/-- `kill` by `a`. -/
def kill (a : Sender) (p : Process Sender) : Process Sender :=
  if p.blocked then
    { p with sent := p.sent ++ [a], pending := p.pending.or (some a) }
  else { p with sent := p.sent ++ [a], terminated := true }

/-- `sigwait`; it does not return while nothing is pending. -/
def sigwait (p : Process Sender) : Option (Process Sender) :=
  p.pending.map fun a => { p with pending := none, taken := p.taken ++ [a] }

/-- No signal to the process was merged or lost: each one sent was taken or is
    still pending. -/
structure Exact (p : Process Sender) : Prop where
  alive : p.terminated = false
  books : p.sent = p.taken ++ p.pending.toList

@[simp] theorem quiet_blocked (b : Bool) : (quiet b : Process Sender).blocked = b := rfl

@[simp] theorem quiet_sent (b : Bool) : (quiet b : Process Sender).sent = [] := rfl

@[simp] theorem quiet_taken (b : Bool) : (quiet b : Process Sender).taken = [] := rfl

@[simp] theorem quiet_pending (b : Bool) : (quiet b : Process Sender).pending = none := rfl

@[simp] theorem block_pending (p : Process Sender) : p.block.pending = p.pending := rfl

@[simp] theorem block_sent (p : Process Sender) : p.block.sent = p.sent := rfl

@[simp] theorem block_taken (p : Process Sender) : p.block.taken = p.taken := rfl

@[simp] theorem kill_sent (a : Sender) (p : Process Sender) :
    (p.kill a).sent = p.sent ++ [a] := by
  unfold kill
  split <;> rfl

@[simp] theorem kill_taken (a : Sender) (p : Process Sender) : (p.kill a).taken = p.taken := by
  unfold kill
  split <;> rfl

@[simp] theorem kill_blocked (a : Sender) (p : Process Sender) :
    (p.kill a).blocked = p.blocked := by
  unfold kill
  split <;> rfl

theorem exact_quiet (b : Bool) : (quiet b : Process Sender).Exact := ⟨rfl, rfl⟩

/-- `sigwait` moves the pending signal to the ones taken. -/
theorem sigwait_eq_some {p p' : Process Sender} :
    p.sigwait = some p' ↔
      ∃ a, p.pending = some a ∧ p' = { p with pending := none, taken := p.taken ++ [a] } := by
  unfold sigwait
  rw [Option.map_eq_some_iff]
  simp only [eq_comm]

namespace Exact

variable {p : Process Sender}

theorem block (h : p.Exact) : p.block.Exact := ⟨h.alive, h.books⟩

/-- A signal to a process that holds it back and has none pending stays pending. -/
theorem kill_eq (hb : p.blocked = true) (a : Sender) (hp : p.pending = none) :
    p.kill a = { p with sent := p.sent ++ [a], pending := some a } := by
  simp [Process.kill, hb, hp]

theorem kill (h : p.Exact) (hb : p.blocked = true) (a : Sender) (hp : p.pending = none) :
    (p.kill a).Exact := by
  rw [kill_eq hb a hp]
  refine ⟨h.alive, ?_⟩
  simp [h.books, hp]

theorem sigwait (h : p.Exact) {p' : Process Sender} (hw : p.sigwait = some p') : p'.Exact := by
  obtain ⟨a, ha, rfl⟩ := sigwait_eq_some.mp hw
  refine ⟨h.alive, ?_⟩
  simp [h.books, ha]

end Exact

end Process

end Signal
