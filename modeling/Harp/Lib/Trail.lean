/-!
This module contains computations over a state that can stop early and that leave a trace of what they
met on the way. What is behind the point where one stops is not in its trace.
-/

namespace Trails

variable {σ ε α β : Type}

-- The result, the state that is left and the trace, oldest event first.
abbrev Trail (σ ε α : Type) : Type :=
  σ → Option α × σ × List ε

namespace Trail

def pure (a : α) : Trail σ ε α :=
  fun s => (some a, s, [])

def bind (x : Trail σ ε α) (f : α → Trail σ ε β) : Trail σ ε β :=
  fun s =>
    match x s with
    | (some a, s, es) => ((f a s).1, (f a s).2.1, es ++ (f a s).2.2)
    | (none, s, es) => (none, s, es)

instance monad : Monad (Trail σ ε) where
  pure := Trail.pure
  bind := Trail.bind

-- A step without events.
def lift (x : σ → Option α × σ) : Trail σ ε α :=
  fun s => ((x s).1, (x s).2, [])

def emit (e : ε) : Trail σ ε Unit :=
  fun s => (some (), s, [e])

-- A step whose failure is not looked at.
def attempt (x : Trail σ ε α) : Trail σ ε (Option α) :=
  fun s => (some (x s).1, (x s).2)

def loop (n : Nat) (body : β → Trail σ ε β) (b : β) : Trail σ ε β :=
  match n with
  | 0 => Trail.pure b
  | n + 1 => Trail.bind (body b) (fun b => loop n body b)

-- A loop that looks at the state before each turn.
def loopWhile (go : σ → Bool) (n : Nat) (body : Trail σ ε Unit) : Trail σ ε Unit :=
  match n with
  | 0 => Trail.pure ()
  | n + 1 => fun s =>
    if go s then Trail.bind body (fun _ => loopWhile go n body) s else (some (), s, [])

-- The computation without its trace.
def erase (x : Trail σ ε α) (s : σ) : Option α × σ :=
  ((x s).1, (x s).2.1)

def trace (x : Trail σ ε α) (s : σ) : List ε :=
  (x s).2.2

theorem bind_eq (x : Trail σ ε α) (f : α → Trail σ ε β) : x >>= f = Trail.bind x f :=
  rfl

theorem pure_eq (a : α) : (Pure.pure a : Trail σ ε α) = Trail.pure a :=
  rfl

theorem bind_of_some {x : Trail σ ε α} {f : α → Trail σ ε β} {s s' : σ} {a : α} {es : List ε}
    (h : x s = (some a, s', es))
    : Trail.bind x f s = ((f a s').1, (f a s').2.1, es ++ (f a s').2.2) := by
  unfold Trail.bind
  rw [h]

theorem bind_of_none {x : Trail σ ε α} {f : α → Trail σ ε β} {s s' : σ} {es : List ε}
    (h : x s = (none, s', es)) : Trail.bind x f s = (none, s', es) := by
  unfold Trail.bind
  rw [h]

section Erase

theorem erase_bind (x : Trail σ ε α) (f : α → Trail σ ε β) (s : σ)
    : (x >>= f).erase s
        = match x.erase s with
          | (some a, s) => (f a).erase s
          | (none, s) => (none, s) := by
  rw [bind_eq]
  unfold erase Trail.bind
  rcases x s with ⟨_ | a, s, es⟩ <;> rfl

theorem trace_bind (x : Trail σ ε α) (f : α → Trail σ ε β) (s : σ)
    : (x >>= f).trace s
        = x.trace s ++ match x.erase s with
          | (some a, s) => (f a).trace s
          | (none, _) => [] := by
  rw [bind_eq]
  unfold erase trace Trail.bind
  rcases x s with ⟨_ | a, s, es⟩
  . exact (List.append_nil es).symm
  . rfl

end Erase

-- All that the computation leaves behind, whatever becomes of it.
def Only (P : ε → Prop) (x : Trail σ ε α) : Prop :=
  ∀ s, ∀ e ∈ x.trace s, P e

section Only

variable {P : ε → Prop}

theorem Only.pure (a : α) : Only P (Pure.pure a : Trail σ ε α) := by
  intro s e he
  cases he

theorem Only.lift (x : σ → Option α × σ) : Only P (lift x : Trail σ ε α) := by
  intro s e he
  cases he

theorem Only.emit {e : ε} (h : P e) : Only P (emit e : Trail σ ε Unit) := by
  intro s e' he
  rw [List.mem_singleton.mp he]
  exact h

theorem Only.attempt {x : Trail σ ε α} (h : Only P x) : Only P (attempt x) :=
  h

theorem Only.bind {x : Trail σ ε α} {f : α → Trail σ ε β} (hx : Only P x) (hf : ∀ a, Only P (f a))
    : Only P (x >>= f) := by
  intro s e he
  rw [trace_bind, List.mem_append] at he
  rcases he with he | he
  . exact hx s e he
  . split at he
    next a s' _ => exact hf a s' e he
    next => cases he

theorem Only.loop {body : β → Trail σ ε β} (h : ∀ b, Only P (body b)) (n : Nat) (b : β)
    : Only P (loop n body b) := by
  induction n generalizing b with
  | zero => exact Only.pure b
  | succ n ih => exact Only.bind (h b) ih

theorem Only.loopWhile {go : σ → Bool} {body : Trail σ ε Unit} (h : Only P body) (n : Nat)
    : Only P (loopWhile go n body) := by
  induction n with
  | zero => exact Only.pure ()
  | succ n ih =>
    intro s e he
    unfold trace Trail.loopWhile at he
    split at he
    . exact Only.bind h (fun _ => ih) s e he
    . cases he

end Only

-- A run that does not stop, with the part of its trace that `p` asks for.
structure Yields (p : ε → Bool) (x : Trail σ ε α) (s : σ) (a : α) (s' : σ) (es : List ε) : Prop where
  result : x.erase s = (some a, s')
  trace : (x.trace s).filter p = es

section Yields

variable {p : ε → Bool} {s s' s'' : σ} {a : α} {b : β} {es es' : List ε}

theorem Yields.pure (a : α) (s : σ) : Yields p (Pure.pure a : Trail σ ε α) s a s [] :=
  ⟨rfl, rfl⟩

theorem Yields.lift {x : σ → Option α × σ} (h : x s = (some a, s'))
    : Yields p (lift x : Trail σ ε α) s a s' [] := by
  refine ⟨?_, rfl⟩
  unfold erase Trail.lift
  rw [h]

theorem Yields.emit {e : ε} (h : p e = true) (s : σ)
    : Yields p (emit e : Trail σ ε Unit) s () s [e] := by
  refine ⟨rfl, ?_⟩
  unfold Trail.trace Trail.emit
  rw [List.filter_cons_of_pos h]
  rfl

theorem Yields.bind {x : Trail σ ε α} {f : α → Trail σ ε β} (hx : Yields p x s a s' es)
    (hf : Yields p (f a) s' b s'' es') : Yields p (x >>= f) s b s'' (es ++ es') := by
  constructor
  . rw [erase_bind, hx.result]
    exact hf.result
  . rw [trace_bind, hx.result, List.filter_append, hx.trace, hf.trace]

theorem Yields.loop_succ {n : Nat} {body : β → Trail σ ε β} {b₁ b₂ : β}
    (hbody : Yields p (body b) s b₁ s' es) (hloop : Yields p (loop n body b₁) s' b₂ s'' es')
    : Yields p (loop (n + 1) body b) s b₂ s'' (es ++ es') :=
  hbody.bind hloop

theorem Yields.loopWhile_succ {go : σ → Bool} {n : Nat} {body : Trail σ ε Unit} (hgo : go s = true)
    (hbody : Yields p body s () s' es) (hloop : Yields p (loopWhile go n body) s' () s'' es')
    : Yields p (loopWhile go (n + 1) body) s () s'' (es ++ es') := by
  have heq : loopWhile go (n + 1) body s = Trail.bind body (fun _ => loopWhile go n body) s := by
    rw [Trail.loopWhile]
    exact if_pos hgo
  have hboth := hbody.bind (f := fun _ => loopWhile go n body) hloop
  rw [bind_eq] at hboth
  constructor
  . have hresult := hboth.result
    unfold erase at hresult ⊢
    rw [heq]
    exact hresult
  . have htrace := hboth.trace
    unfold Trail.trace at htrace ⊢
    rw [heq]
    exact htrace

end Yields

end Trail

end Trails
