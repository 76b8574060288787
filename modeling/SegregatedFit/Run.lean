import SegregatedFit.Event

/-!
Runs: computations that report events on their way and may end in a fault. The events are kept apart
from the result, and those reported before a fault are not lost.
-/

namespace SegregatedFit

structure Run (α : Type) where
  result : Except Fault α
  log : Array Event

namespace Run

variable {α β : Type}

@[inline] protected def pure (a : α) : Run α := ⟨.ok a, #[]⟩

@[inline] protected def bind (x : Run α) (f : α → Run β) : Run β :=
  match x with
  | ⟨.ok a, log⟩ =>
    let ⟨result, more⟩ := f a
    ⟨result, log ++ more⟩
  | ⟨.error fault, log⟩ => ⟨.error fault, log⟩

instance : Monad Run where
  pure := Run.pure
  bind := Run.bind

-- A step that reports nothing.
@[inline] def quiet (x : Except Fault α) : Run α := ⟨x, #[]⟩

instance : MonadLift (Except Fault) Run := ⟨quiet⟩

def emit (e : Event) : Run Unit := ⟨.ok (), #[e]⟩

def emitAll (events : Array Event) : Run Unit := ⟨.ok (), events⟩

@[simp] theorem result_pure (a : α) : (pure a : Run α).result = .ok a := rfl

@[simp] theorem result_bind (x : Run α) (f : α → Run β) :
    (x >>= f).result = x.result >>= fun a => (f a).result := by
  obtain ⟨result, log⟩ := x
  cases result <;> rfl

@[simp] theorem result_map (f : α → β) (x : Run α) : (f <$> x).result = f <$> x.result := by
  obtain ⟨result, log⟩ := x
  cases result <;> rfl

@[simp] theorem result_lift (x : Except Fault α) : (liftM x : Run α).result = x := rfl

@[simp] theorem result_emit (e : Event) : (emit e).result = .ok () := rfl

@[simp] theorem result_emitAll (events : Array Event) : (emitAll events).result = .ok () := rfl

@[simp] theorem log_pure (a : α) : (pure a : Run α).log = #[] := rfl

@[simp] theorem log_emit (e : Event) : (emit e).log = #[e] := rfl

instance : LawfulMonad Run := LawfulMonad.mk' Run
  (fun x => by
    obtain ⟨result, log⟩ := x
    cases result <;> simp [Functor.map, Run.bind, Run.pure])
  (fun a f => by
    rcases h : f a with ⟨result, log⟩
    simp [bind, pure, Run.bind, Run.pure, h])
  (fun x f g => by
    obtain ⟨result, log⟩ := x
    cases result with
    | error fault => rfl
    | ok a =>
      rcases h : f a with ⟨second, more⟩
      cases second <;> simp [bind, Run.bind, h])

end Run

end SegregatedFit
