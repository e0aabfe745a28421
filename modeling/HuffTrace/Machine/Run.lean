/-
  HuffTrace.Machine.Run

  Executing a program.  Each turn of the loop uses up one of the steps that the
  limits allow, and a machine started for another program goes on with the
  steps of its caller.  So the steps that are left bound the turns of all loops
  together, and the recursion is on them.
-/

import HuffTrace.Machine.Step

namespace HuffTrace.Machine

variable {σ : Type}

/-- Executes one token with its comment. -/
def turn [Scope σ] (run : Nat → Machine σ → Machine σ) (m : Machine σ) (token : Token) :
    Machine σ :=
  match (m.advance token).step run m.pointer token with
  | (some position, m) => m.comment position
  | (none, m) => m

/-- Executes tokens until the pointer reaches `stop` outside of any call, runs off the end
    of the program, or the steps run out.  `fuel` is at least the number of steps left. -/
def runFor [Scope σ] (fuel stop : Nat) (m : Machine σ) : Machine σ :=
  match m.program.token? m.pointer with
  | none => m
  | some token =>
    if m.frames.isEmpty ∧ stop ≤ m.pointer then m
    else
      match fuel with
      | 0 => m.halt token
      | fuel + 1 =>
        if m.limits.steps ≤ m.steps then m.halt token
        else
          let m := m.turn (fun stop m => runFor fuel stop m) token
          if m.halted then m else runFor fuel stop m

/-- Executes tokens until the pointer reaches `stop` outside of any call. -/
def runTo [Scope σ] (stop : Nat) (m : Machine σ) : Machine σ :=
  runFor (m.limits.steps - m.steps) stop m

/-- Executes a program from its first token.  Everything but the pointer and the mark of
    having halted is kept from earlier executions. -/
def execute [Scope σ] (m : Machine σ) : Machine σ :=
  { m with pointer := 0, halted := false }.runTo m.program.size

end HuffTrace.Machine
