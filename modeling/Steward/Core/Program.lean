/-!
Programs as trees of calls. A program either is done or makes a call and goes on with the answer,
so everything a component or a fleet does can be run, interleaved and reasoned about as a value.
-/
namespace Steward

inductive Program {ι : Type} (Answer : ι → Type) (α : Type) : Type where
  | done (a : α)
  | call (i : ι) (next : Answer i → Program Answer α)

namespace Program

variable {ι κ : Type} {Answer : ι → Type} {Reply : κ → Type} {α β γ : Type}

def bind : Program Answer α → (α → Program Answer β) → Program Answer β
  | .done a, f => f a
  | .call i next, f => .call i fun a => (next a).bind f

instance : Monad (Program Answer) where
  pure := .done
  bind := bind

def ask (i : ι) : Program Answer (Answer i) := .call i .done

/-- The same program with each call carried out by a program over other calls. -/
def interpret (carry : (i : ι) → Program Reply (Answer i)) :
    Program Answer α → Program Reply α
  | .done a => .done a
  | .call i next => (carry i).bind fun a => (next a).interpret carry

@[simp] theorem done_bind (a : α) (f : α → Program Answer β) : (done a).bind f = f a := rfl

@[simp] theorem call_bind (i : ι) (next : Answer i → Program Answer α)
    (f : α → Program Answer β) : (call i next).bind f = call i fun a => (next a).bind f := rfl

@[simp] theorem pure_eq_done (a : α) : (pure a : Program Answer α) = done a := rfl

@[simp] theorem bind_eq_bind (p : Program Answer α) (f : α → Program Answer β) :
    (p >>= f) = p.bind f := rfl

theorem bind_done (p : Program Answer α) : p.bind done = p := by
  induction p with
  | done a => rfl
  | call i next ih => simp only [call_bind, ih]

theorem bind_assoc (p : Program Answer α) (f : α → Program Answer β)
    (g : β → Program Answer γ) : (p.bind f).bind g = p.bind fun a => (f a).bind g := by
  induction p with
  | done a => rfl
  | call i next ih => simp only [call_bind, ih]

theorem interpret_bind (carry : (i : ι) → Program Reply (Answer i)) (p : Program Answer α)
    (f : α → Program Answer β) :
    (p.bind f).interpret carry = (p.interpret carry).bind fun a => (f a).interpret carry := by
  induction p with
  | done a => rfl
  | call i next ih => simp only [call_bind, interpret, ih, bind_assoc]

instance : LawfulMonad (Program Answer) :=
  LawfulMonad.mk' (Program Answer) bind_done (fun _ _ => rfl) bind_assoc

end Program

end Steward
