import Mathlib.Tactic

/-!
# Interactive programs with exceptions

A program calls operations of a fixed interface, is answered by its environment, and may raise.
Nothing is said here about what an operation does: that is the business of the environment
(`Interactive.Contract`).  A program is a well-founded tree, so every run of it ends.

* `Signature`, `Prog`: the interface and the programs over it;
* `perform`: call one operation and raise its failure;
* `tryCatch`, `tryFinally`: the exception handlers of an imperative language.
-/

namespace Interactive

/-- The operations of an interface, and what each of them answers. -/
structure Signature where
  Op : Type
  Answer : Op → Type

/-- A program returns a value, raises, or calls an operation and goes on with its answer. -/
inductive Prog (S : Signature) (ε α : Type) : Type
  | pure (a : α)
  | raise (e : ε)
  | call (o : S.Op) (k : Except ε (S.Answer o) → Prog S ε α)

namespace Prog

variable {S : Signature} {ε α β γ : Type}

/-- Sequential composition; an exception of the first program skips the second. -/
protected def bind : Prog S ε α → (α → Prog S ε β) → Prog S ε β
  | .pure a, f => f a
  | .raise e, _ => .raise e
  | .call o k, f => .call o fun r => (k r).bind f

instance : Monad (Prog S ε) where
  pure := .pure
  bind := Prog.bind

@[simp] theorem pure_bind (a : α) (f : α → Prog S ε β) : (Prog.pure a >>= f) = f a := rfl

@[simp] theorem return_bind (a : α) (f : α → Prog S ε β) :
    ((Pure.pure a : Prog S ε α) >>= f) = f a := rfl

@[simp] theorem raise_bind (e : ε) (f : α → Prog S ε β) : (Prog.raise e >>= f) = .raise e := rfl

@[simp] theorem call_bind (o : S.Op) (k : Except ε (S.Answer o) → Prog S ε α)
    (f : α → Prog S ε β) : (Prog.call o k >>= f) = .call o fun r => k r >>= f := rfl

protected theorem bind_assoc (p : Prog S ε α) (f : α → Prog S ε β) (g : β → Prog S ε γ) :
    ((p >>= f) >>= g) = p >>= fun a => f a >>= g := by
  induction p with
  | pure a => rfl
  | raise e => rfl
  | call o k ih =>
    rw [call_bind, call_bind, call_bind]
    exact congrArg (Prog.call o) (funext ih)

/-- Call one operation; its failure is raised. -/
def perform (o : S.Op) : Prog S ε (S.Answer o) :=
  .call o fun
    | .ok a => .pure a
    | .error e => .raise e

/-- A pure computation that may fail, as a program. -/
def lift : Except ε α → Prog S ε α
  | .ok a => .pure a
  | .error e => .raise e

@[simp] theorem lift_ok (a : α) : (lift (.ok a) : Prog S ε α) = .pure a := rfl

@[simp] theorem lift_error (e : ε) : (lift (.error e) : Prog S ε α) = .raise e := rfl

/-- `try p except e: h e`. -/
def tryCatch : Prog S ε α → (ε → Prog S ε α) → Prog S ε α
  | .pure a, _ => .pure a
  | .raise e, h => h e
  | .call o k, h => .call o fun r => (k r).tryCatch h

/-- `try p finally f`: `f` runs after either outcome, and an exception of `f` replaces it. -/
def tryFinally : Prog S ε α → Prog S ε Unit → Prog S ε α
  | .pure a, f => f >>= fun _ => .pure a
  | .raise e, f => f >>= fun _ => .raise e
  | .call o k, f => .call o fun r => (k r).tryFinally f

end Prog

end Interactive
