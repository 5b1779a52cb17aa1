import Mathlib

/-!
# Runs of transactions

A transaction on a state either commits a new state or fails, and a failure leaves the state as it
was.  A run applies transactions one after another, so what every commit keeps holds after every
step of every run (`run_invariant`).
-/

namespace IpfS3.Transactions

variable {σ ε ο : Type*}

/-- One transaction: the committed state, or the old one after a rollback. -/
def commit (transact : σ → ο → Except ε σ) (st : σ) (op : ο) : σ :=
  match transact st op with
  | .ok st' => st'
  | .error _ => st

def run (transact : σ → ο → Except ε σ) (st : σ) (ops : List ο) : σ :=
  ops.foldl (commit transact) st

variable {transact : σ → ο → Except ε σ} {st : σ}

@[simp] theorem run_nil : run transact st [] = st := rfl

@[simp] theorem run_cons (op : ο) (ops : List ο) :
    run transact st (op :: ops) = run transact (commit transact st op) ops := rfl

theorem run_append (ops ops' : List ο) :
    run transact st (ops ++ ops') = run transact (run transact st ops) ops' :=
  List.foldl_append

theorem run_invariant_of_forall {Inv : σ → Prop} {P : ο → Prop}
    (hstep : ∀ st op st', P op → Inv st → transact st op = .ok st' → Inv st') (hst : Inv st)
    {ops : List ο} (hops : ∀ op ∈ ops, P op) : Inv (run transact st ops) := by
  induction ops generalizing st with
  | nil => exact hst
  | cons op ops ih =>
    rw [run_cons, commit]
    refine ih ?_ fun op' hop' => hops op' (List.mem_cons_of_mem op hop')
    split
    · exact hstep st op _ (hops op List.mem_cons_self) hst ‹_›
    · exact hst

/-- **What every commit keeps holds after every run.** -/
theorem run_invariant {Inv : σ → Prop}
    (hstep : ∀ st op st', Inv st → transact st op = .ok st' → Inv st') (hst : Inv st)
    (ops : List ο) : Inv (run transact st ops) :=
  run_invariant_of_forall (P := fun _ => True) (fun st op st' _ => hstep st op st') hst
    fun _ _ => trivial

end IpfS3.Transactions
