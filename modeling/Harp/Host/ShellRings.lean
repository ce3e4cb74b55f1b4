import Harp.Lib.QueueTrace

/-!
This module contains the lock-free rings of `shell/ring.h`, `SpscRing` and `FloatRing`, as programs
of single loads and stores on the memory they share. The producer and the consumer run them
concurrently, and every run is one of a bounded queue.
-/

namespace Harp

open AskProg Threads SharedRing

-- Items of plain data: how they lie in memory and in which order an assignment copies the words.
structure Pod (T K β : Type) extends Layout T K β where
  order : List K
  mem_order : ∀ k, k ∈ order

-- `buf_` before anything is written, and both cursors at 0.
def freshMem {K β : Type} (buf : UInt64 → K → β) : Mem K β :=
  ⟨buf, 0, 0⟩

namespace SpscRing

variable {T K β : Type} [DecidableEq K] (cap : Capacity) (pod : Pod T K β)

-- `out` is given with what it holds before the call.
inductive Call (T K β : Type) : Side → Type where
  | push (e : T) : Call T K β .producer
  | pop (out : K → β) : Call T K β .consumer

def Ret : (i : Side) → Call T K β i → Type
  | _, .push _ => Bool
  | _, .pop _ => Option T

def push (e : T) : Prog (RingAct K β) RingAct.Res Bool :=
  .ask .loadHead fun (h : UInt64) =>
    .ask .loadTail fun (t : UInt64) =>
      if cap.word ≤ h - t then
        .ret false
      else
        storeWords (h &&& (cap.word - 1)) (pod.word e) pod.order
          (.ask (.storeHead (h + 1)) fun _ => .ret true)

def pop (out : K → β) : Prog (RingAct K β) RingAct.Res (Option T) :=
  .ask .loadTail fun (t : UInt64) =>
    .ask .loadHead fun (h : UInt64) =>
      if t = h then
        .ret none
      else
        loadWords (t &&& (cap.word - 1)) pod.order out fun out =>
          .ask (.storeTail (t + 1)) fun _ => .ret (some (pod.ofWords out))

def code : (i : Side) → (op : Call T K β i) → Prog (RingAct K β) RingAct.Res (Ret i op)
  | _, .push e => push cap pod e
  | _, .pop out => pop cap pod out

def resultOf : (i : Side) → (op : Call T K β i) → Ret i op → Did T
  | _, .push e, ok => .added [e] (Bool.toNat ok)
  | _, .pop _, out => .took 1 (Option.toList out)

def did (i : Side) (d : (op : Call T K β i) × Ret i op) : Did T :=
  resultOf i d.1 d.2

section Calls

variable {cap pod} {γ : Mem K β × Queue T}

theorem safe_push (e : T)
    : (protocol cap pod.toLayout did).Safe (system (code cap pod)) .producer (.push e)
        (push cap pod e) γ := by
  apply safe_load (fun _ => rfl)
  intro γ₁ _ hinv₁
  apply goes_of_safe rfl
  apply safe_load (fun _ => rfl)
  intro γ₂ hrely₂ hinv₂
  have hall : γ₂.2.gone ++ γ₂.2.items = γ₁.2.gone ++ γ₁.2.items := hrely₂.all
  have hdiff : γ₁.1.head - γ₂.1.tail = UInt64.ofNat γ₂.2.items.length :=
    hinv₁.head_sub_tail hinv₂ hall
  have hfull : cap.word ≤ γ₁.1.head - γ₂.1.tail ↔ cap.size ≤ γ₂.2.items.length := by
    rw [hdiff, UInt64.le_iff_toNat_le, cap.toNat_word, hinv₂.toNat_length]
  have hplace : γ₁.1.head = UInt64.ofNat (γ₂.2.gone.length + γ₂.2.items.length) := by
    rw [hinv₁.head, ← List.length_append, ← List.length_append, hall]
  have hroom := hinv₂.room_observe
  change Goes cap pod.toLayout did (code cap pod) .producer (.push e)
    (if cap.word ≤ γ₁.1.head - γ₂.1.tail then .ret false
      else storeWords (γ₁.1.head &&& cap.mask) (pod.word e) pod.order
        (.ask (.storeHead (γ₁.1.head + 1)) fun _ => .ret true)) _
  by_cases h : cap.word ≤ γ₁.1.head - γ₂.1.tail
  . rw [if_pos h]
    rw [Nat.sub_eq_zero_of_le (hfull.mp h)] at hroom
    exact goes_refused (hinv₂.observe _ _) hroom rfl
  . rw [if_neg h, hplace]
    rw [hfull] at h
    apply goes_of_safe (ended_storeWords _ _ _ rfl)
    apply safe_storeWords pod.order hroom (by rw [List.length_nil]; omega) (filled_nil _ _) rfl
    . exact fun k => Or.inl (pod.mem_order k)
    . rfl
    . intro γ₃ hroom₃ hfilled
      have hone : min [e].length (cap.size - γ₂.2.items.length) = 1 := by
        rw [List.length_singleton]
        omega
      have htake : [e].take (cap.size - γ₂.2.items.length) = [e] :=
        List.take_of_length_le (by rw [List.length_singleton]; omega)
      rw [List.nil_append, ← htake] at hfilled
      apply safe_publish hroom₃ hfilled
      . rw [hone]
        exact (UInt64.ofNat_add _ 1).symm
      . rw [hone]
        rfl

theorem safe_pop (out : K → β)
    : (protocol cap pod.toLayout did).Safe (system (code cap pod)) .consumer (.pop out)
        (pop cap pod out) γ := by
  apply safe_load (fun _ => rfl)
  intro γ₁ _ hinv₁
  apply goes_of_safe rfl
  apply safe_load (fun _ => rfl)
  intro γ₂ hrely₂ hinv₂
  have hgone : γ₂.2.gone = γ₁.2.gone := hrely₂.gone
  have htail : γ₂.1.tail = γ₁.1.tail := hrely₂.tail
  have hempty : γ₁.1.tail = γ₂.1.head ↔ γ₂.2.items = [] := by
    rw [← htail, ← List.length_eq_zero_iff]
    exact hinv₂.tail_eq_head_iff
  have hfront := front_observe cap γ₂
  change Goes cap pod.toLayout did (code cap pod) .consumer (.pop out)
    (if γ₁.1.tail = γ₂.1.head then .ret none
      else loadWords (γ₁.1.tail &&& cap.mask) pod.order out fun out =>
        .ask (.storeTail (γ₁.1.tail + 1)) fun _ => .ret (some (pod.ofWords out))) _
  by_cases h : γ₁.1.tail = γ₂.1.head
  . rw [if_pos h]
    rw [hempty.mp h] at hfront
    exact goes_nothing (hinv₂.observe _ _) hfront rfl
  . rw [if_neg h, hinv₁.tail, ← hgone]
    rw [hempty] at h
    apply goes_of_safe (ended_loadWords _ _ _ (fun _ => rfl))
    apply safe_loadWords pod.order out hfront (List.length_pos_iff.mpr h) rfl
    . exact fun k => Or.inl (pod.mem_order k)
    . exact fun _ => rfl
    . intro γ₃ hfront₃
      have hpos := List.length_pos_iff.mpr h
      have hone : min 1 γ₂.2.items.length = 1 := by omega
      have htake : γ₂.2.items.take 1 = [γ₂.2.items[0]] := List.take_succ_eq_append_getElem hpos
      rw [pod.ofWords_word]
      apply safe_release (n := 1) hfront₃
      . rw [hone]
        exact (UInt64.ofNat_add _ 1).symm
      . rw [htake]
        rfl

theorem safe_code (i : Side) (op : Call T K β i) (γ : Mem K β × Queue T)
    : (protocol cap pod.toLayout did).Safe (system (code cap pod)) i op (code cap pod i op) γ := by
  cases op with
  | push e => exact safe_push e
  | pop out => exact safe_pop out

omit [DecidableEq K] in
theorem sided_did : Sided (did : (i : Side) → ((op : Call T K β i) × Ret i op) → Did T) := by
  constructor
  . intro ⟨op, r⟩
    cases op with
    | push e => exact ⟨[e], Bool.toNat r, rfl⟩
  . intro ⟨op, r⟩ xs n
    cases op with
    | pop out => exact nofun

omit [DecidableEq K] in
theorem did_ne_cleared (i : Side) (d : (op : Call T K β i) × Ret i op) (index : UInt64)
    : did i d ≠ .cleared index := by
  obtain ⟨op, r⟩ := d
  cases op with
  | push e => exact nofun
  | pop out => exact nofun

theorem ended_code (i : Side) (op : Call T K β i) : ended (code cap pod i op) = none := by
  cases op with
  | push e => rfl
  | pop out => rfl

end Calls

end SpscRing

namespace FloatRing

variable {β : Type} (cap : Capacity)

inductive Call (β : Type) : Side → Type where
  | write (src : List β) : Call β .producer
  | read (n : Nat) : Call β .consumer
  | clear : Call β .consumer

def Ret : (i : Side) → Call β i → Type
  | _, .write _ => Nat
  | _, .read _ => List β
  | _, .clear => UInt64

-- `for (i < n) buf_[(h + i) & mask_] = src[i]`
def storeFloats {α : Type} (h : UInt64) : Nat → List β → Prog (RingAct Unit β) RingAct.Res α
    → Prog (RingAct Unit β) RingAct.Res α
  | _, [], p => p
  | i, x :: src, p =>
    .ask (.storeWord ((h + UInt64.ofNat i) &&& cap.mask) () x) fun _ =>
      storeFloats h (i + 1) src p

-- `for (i < n) dst[i] = buf_[(t + i) & mask_]`
def loadFloats {α : Type} (t : UInt64) : Nat → Nat → List β
    → (List β → Prog (RingAct Unit β) RingAct.Res α) → Prog (RingAct Unit β) RingAct.Res α
  | _, 0, dst, p => p dst
  | i, n + 1, dst, p =>
    .ask (.loadWord ((t + UInt64.ofNat i) &&& cap.mask) ()) fun (x : β) =>
      loadFloats t (i + 1) n (dst ++ [x]) p

def write (src : List β) : Prog (RingAct Unit β) RingAct.Res Nat :=
  -- `writeAvailable`
  .ask .loadHead fun (h : UInt64) =>
    .ask .loadTail fun (t : UInt64) =>
      let can := (cap.word - (h - t)).toNat
      let n := if can < src.length then can else src.length
      .ask .loadHead fun (h : UInt64) =>
        storeFloats cap h 0 (src.take n)
          (.ask (.storeHead (h + UInt64.ofNat n)) fun _ => .ret n)

def read (n : Nat) : Prog (RingAct Unit β) RingAct.Res (List β) :=
  -- `readAvailable`
  .ask .loadHead fun (h : UInt64) =>
    .ask .loadTail fun (t : UInt64) =>
      let can := (h - t).toNat
      let n := if can < n then can else n
      .ask .loadTail fun (t : UInt64) =>
        loadFloats cap t 0 n [] fun dst =>
          .ask (.storeTail (t + UInt64.ofNat n)) fun _ => .ret dst

def clear : Prog (RingAct Unit β) RingAct.Res UInt64 :=
  .ask .loadHead fun (h : UInt64) =>
    .ask (.storeTail h) fun _ => .ret h

def code : (i : Side) → (op : Call β i) → Prog (RingAct Unit β) RingAct.Res (Ret i op)
  | _, .write src => write cap src
  | _, .read n => read cap n
  | _, .clear => clear

def resultOf : (i : Side) → (op : Call β i) → Ret i op → Did β
  | _, .write src, n => .added src n
  | _, .read n, dst => .took n dst
  | _, .clear, index => .cleared index

def did (i : Side) (d : (op : Call β i) × Ret i op) : Did β :=
  resultOf i d.1 d.2

-- A float is one word.
def layout (β : Type) : Layout β Unit β :=
  ⟨fun x _ => x, fun w => w (), fun _ => rfl⟩

section Calls

variable {cap} {γ : Mem Unit β × Queue β}

theorem ended_storeFloats {i : Side} {op : Call β i} (h : UInt64) (j : Nat) (src : List β)
    {p : Prog (RingAct Unit β) RingAct.Res (Ret i op)} (hp : ended p = none)
    : ended (storeFloats cap h j src p) = none := by
  cases src with
  | nil => exact hp
  | cons x src => rfl

theorem ended_loadFloats {i : Side} {op : Call β i} (t : UInt64) (j n : Nat) (dst : List β)
    {p : List β → Prog (RingAct Unit β) RingAct.Res (Ret i op)} (hp : ∀ dst, ended (p dst) = none)
    : ended (loadFloats cap t j n dst p) = none := by
  cases n with
  | zero => exact hp dst
  | succ n => rfl

-- `done` are the floats that are in their cells already.
theorem safe_storeFloats {op : Call β .producer}
    {p : Prog (RingAct Unit β) RingAct.Res (Ret .producer op)} {place r : Nat} (done src : List β)
    (hroom : HasRoom cap γ place r)
    (hr : done.length + src.length ≤ r) (hfilled : Filled cap (layout β) γ.1 place done)
    (hp : ended p = none)
    (h : ∀ γ', HasRoom cap γ' place r → Filled cap (layout β) γ'.1 place (done ++ src) →
      (protocol cap (layout β) did).Safe (system (code cap)) .producer op p γ')
    : (protocol cap (layout β) did).Safe (system (code cap)) .producer op
        (storeFloats cap (UInt64.ofNat place) done.length src p) γ := by
  induction src generalizing done γ with
  | nil =>
    rw [List.append_nil] at h
    exact h γ hroom hfilled
  | cons x src ih =>
    rw [List.length_cons] at hr
    have hlen : (done ++ [x]).length = done.length + 1 := by
      rw [List.length_append, List.length_singleton]
    change (protocol cap (layout β) did).Safe (system (code cap)) .producer op
      (storeWords ((UInt64.ofNat place + UInt64.ofNat done.length) &&& cap.mask)
        ((layout β).word x) [()] (storeFloats cap (UInt64.ofNat place) (done.length + 1) src p)) γ
    apply safe_storeWords [()] hroom (by omega) hfilled (UInt64.ofNat_add _ _).symm
    . exact fun _ => Or.inl (List.mem_singleton.mpr rfl)
    . exact ended_storeFloats (UInt64.ofNat place) (done.length + 1) src hp
    . intro γ' hroom' hfilled'
      rw [← hlen]
      apply ih (done ++ [x]) hroom' (by omega) hfilled'
      intro γ'' hroom'' hfilled''
      rw [List.append_assoc] at hfilled''
      exact h γ'' hroom'' hfilled''

theorem safe_loadFloats {op : Call β .consumer} {place n : Nat} {ys : List β} (dst : List β)
    (hfront : Front γ place ys) (hn : dst.length + n ≤ ys.length)
    (hdst : dst = ys.take dst.length)
    {p : List β → Prog (RingAct Unit β) RingAct.Res (Ret .consumer op)}
    (hp : ∀ dst, ended (p dst) = none)
    (h : ∀ γ', Front γ' place ys →
      (protocol cap (layout β) did).Safe (system (code cap)) .consumer op
        (p (ys.take (dst.length + n))) γ')
    : (protocol cap (layout β) did).Safe (system (code cap)) .consumer op
        (loadFloats cap (UInt64.ofNat place) dst.length n dst p) γ := by
  induction n generalizing dst γ with
  | zero =>
    rw [Nat.add_zero, ← hdst] at h
    exact h γ hfront
  | succ n ih =>
    apply safe_load (fun _ => rfl)
    intro γ' hrely hinv
    have hfront' := hfront.rely hrely
    have hcell : γ'.1.cell ((UInt64.ofNat place + UInt64.ofNat dst.length) &&& cap.mask) ()
        = ys[dst.length] := by
      rw [← UInt64.ofNat_add]
      exact hinv.cell_front hfront' (by omega) ()
    change Goes cap (layout β) did (code cap) .consumer op
      (loadFloats cap (UInt64.ofNat place) (dst.length + 1) n
        (dst ++ [γ'.1.cell ((UInt64.ofNat place + UInt64.ofNat dst.length) &&& cap.mask) ()]) p) γ'
    rw [hcell]
    have hlen : (dst ++ [ys[dst.length]]).length = dst.length + 1 := by
      rw [List.length_append, List.length_singleton]
    apply goes_of_safe (ended_loadFloats _ _ n _ hp)
    rw [← hlen]
    apply ih (dst ++ [ys[dst.length]]) hfront' (by omega)
    . rw [hlen, List.take_succ_eq_append_getElem (by omega), ← hdst]
    . intro γ'' hfront''
      rw [hlen, Nat.add_assoc, Nat.add_comm 1]
      exact h γ'' hfront''

theorem safe_write (src : List β)
    : (protocol cap (layout β) did).Safe (system (code cap)) .producer (.write src)
        (write cap src) γ := by
  apply safe_load (fun _ => rfl)
  intro γ₁ _ hinv₁
  apply goes_of_safe rfl
  apply safe_load (fun _ => rfl)
  intro γ₂ hrely₂ hinv₂
  have hall : γ₂.2.gone ++ γ₂.2.items = γ₁.2.gone ++ γ₁.2.items := hrely₂.all
  have hcan : (cap.word - (γ₁.1.head - γ₂.1.tail)).toNat = cap.size - γ₂.2.items.length := by
    have hdiff := hinv₁.head_sub_tail hinv₂ hall
    have hle : UInt64.ofNat γ₂.2.items.length ≤ cap.word := by
      rw [UInt64.le_iff_toNat_le, cap.toNat_word, hinv₂.toNat_length]
      exact hinv₂.fill
    rw [hdiff, UInt64.toNat_sub_of_le _ _ hle, cap.toNat_word, hinv₂.toNat_length]
  have hroom := hinv₂.room_observe
  generalize cap.size - γ₂.2.items.length = r at *
  have hn : (if r < src.length then r else src.length) = min src.length r := by
    split <;> omega
  apply goes_of_safe rfl
  change (protocol cap (layout β) did).Safe (system (code cap)) .producer (.write src)
    (let can := (cap.word - (γ₁.1.head - γ₂.1.tail)).toNat
      let n := if can < src.length then can else src.length
      .ask .loadHead fun (h : UInt64) =>
        storeFloats cap h 0 (src.take n)
          (.ask (.storeHead (h + UInt64.ofNat n)) fun _ => .ret n)) _
  rw [hcan]
  dsimp only
  rw [hn]
  apply safe_load (fun _ => rfl)
  intro γ₃ hrely₃ hinv₃
  have hroom₃ := hroom.rely hrely₃
  have hhead : (exec γ₃.1 (.loadHead : RingAct Unit β)).2
      = UInt64.ofNat (γ₂.2.gone.length + γ₂.2.items.length) := by
    rw [hroom₃.place]
    exact hinv₃.head
  have htake : src.take (min src.length r) = src.take r := by
    rw [Nat.min_comm, ← List.take_eq_take_min]
  rw [hhead, htake]
  apply goes_of_safe (ended_storeFloats _ _ _ rfl)
  apply safe_storeFloats [] (src.take r) hroom₃
  . rw [List.length_nil, List.length_take]
    omega
  . exact filled_nil _ _
  . rfl
  . intro γ₄ hroom₄ hfilled
    exact safe_publish hroom₄ hfilled (UInt64.ofNat_add _ _).symm rfl

theorem safe_read (n : Nat)
    : (protocol cap (layout β) did).Safe (system (code cap)) .consumer (.read n)
        (read cap n) γ := by
  apply safe_load (fun _ => rfl)
  intro γ₁ _ hinv₁
  have hfront := front_observe cap γ₁
  apply goes_of_safe rfl
  apply safe_load (fun _ => rfl)
  intro γ₂ hrely₂ hinv₂
  have hfront₂ := hfront.rely hrely₂
  have hcan : (γ₁.1.head - γ₂.1.tail).toNat = γ₁.2.items.length := by
    have htail : γ₂.1.tail = γ₁.1.tail := hrely₂.tail
    rw [htail, hinv₁.head_sub_tail hinv₁ rfl, hinv₁.toNat_length]
  have hn : (if γ₁.2.items.length < n then γ₁.2.items.length else n)
      = min n γ₁.2.items.length := by
    split <;> omega
  apply goes_of_safe rfl
  change (protocol cap (layout β) did).Safe (system (code cap)) .consumer (.read n)
    (let can := (γ₁.1.head - γ₂.1.tail).toNat
      let n := if can < n then can else n
      .ask .loadTail fun (t : UInt64) =>
        loadFloats cap t 0 n [] fun dst =>
          .ask (.storeTail (t + UInt64.ofNat n)) fun _ => .ret dst) _
  rw [hcan]
  dsimp only
  rw [hn]
  apply safe_load (fun _ => rfl)
  intro γ₃ hrely₃ hinv₃
  have hfront₃ := hfront₂.rely hrely₃
  have htail : (exec γ₃.1 (.loadTail : RingAct Unit β)).2 = UInt64.ofNat γ₁.2.gone.length := by
    rw [hfront₃.place]
    exact hinv₃.tail
  rw [htail]
  apply goes_of_safe (ended_loadFloats _ _ _ _ (fun _ => rfl))
  apply safe_loadFloats [] hfront₃
  . rw [List.length_nil]
    omega
  . rfl
  . exact fun _ => rfl
  . intro γ₄ hfront₄
    have htake : γ₁.2.items.take (min n γ₁.2.items.length) = γ₁.2.items.take n :=
      List.take_eq_take_min.symm
    rw [List.length_nil, Nat.zero_add, htake]
    exact safe_release hfront₄ (UInt64.ofNat_add _ _).symm rfl

theorem safe_clear
    : (protocol cap (layout β) did).Safe (system (code cap)) .consumer .clear clear γ := by
  apply safe_load (fun _ => rfl)
  intro γ₁ _ hinv
  apply goes_of_safe rfl
  exact SharedRing.safe_clear (front_observe cap γ₁) hinv.head rfl

theorem safe_code (i : Side) (op : Call β i) (γ : Mem Unit β × Queue β)
    : (protocol cap (layout β) did).Safe (system (code cap)) i op (code cap i op) γ := by
  cases op with
  | write src => exact safe_write src
  | read n => exact safe_read n
  | clear => exact safe_clear

theorem sided_did : Sided (did : (i : Side) → ((op : Call β i) × Ret i op) → Did β) := by
  constructor
  . intro ⟨op, r⟩
    cases op with
    | write src => exact ⟨src, r, rfl⟩
  . intro ⟨op, r⟩ xs n
    cases op with
    | read n => exact nofun
    | clear => exact nofun

theorem ended_code (i : Side) (op : Call β i) : ended (code cap i op) = none := by
  cases op with
  | write src => rfl
  | read n => rfl
  | clear => rfl

end Calls

end FloatRing

/--
Every run of the two sides of an `SpscRing`, and of a `FloatRing`, is one of a bounded queue, for
every capacity that is a power of two and however often the cursors wrap, and its trace has the
result of every call that has returned. Nothing is cleared in an `SpscRing`: what was pushed is what
was popped, and what is still there.
-/
theorem shellRings_queues
    : (∀ (T K β : Type) [DecidableEq K] (cap : Capacity) (pod : Pod T K β) (buf : UInt64 → K → β)
          (sched : List ((i : Side) × SpscRing.Call T K β i)),
        let sys := system (SpscRing.code cap pod)
        let c := sys.run (idle (freshMem buf)) sched
        Logged (sys.begun (idle (freshMem buf)) sched) c
          ∧ ∃ q, QueueTrace cap SpscRing.did c.trace q
            ∧ addedItems SpscRing.did c.trace = takenItems SpscRing.did c.trace ++ q.items)
      ∧ ∀ (β : Type) (cap : Capacity) (buf : UInt64 → Unit → β)
          (sched : List ((i : Side) × FloatRing.Call β i)),
        let sys := system (FloatRing.code cap)
        let c := sys.run (idle (freshMem buf)) sched
        Logged (sys.begun (idle (freshMem buf)) sched) c
          ∧ ∃ q, QueueTrace cap FloatRing.did c.trace q := by
  constructor
  . intro T K β _ cap pod buf sched
    have hinit : Agrees cap pod.toLayout (freshMem buf, Queue.empty) := .empty rfl rfl rfl
    obtain ⟨q, hsound⟩ := Protocol.sound_run (P := protocol cap pod.toLayout SpscRing.did)
      (fun i op γ _ => SpscRing.safe_code i op γ) hinit sched
    have hqueue := queueTrace_of_replays SpscRing.sided_did hsound.replays
    refine ⟨logged_run SpscRing.ended_code (freshMem buf) sched, q, hqueue, ?_⟩
    rw [hqueue.all, takenItems_of_replays SpscRing.did_ne_cleared hsound.replays]
  . intro β cap buf sched
    have hinit : Agrees cap (FloatRing.layout β) (freshMem buf, Queue.empty) := .empty rfl rfl rfl
    obtain ⟨q, hsound⟩ := Protocol.sound_run (P := protocol cap (FloatRing.layout β) FloatRing.did)
      (fun i op γ _ => FloatRing.safe_code i op γ) hinit sched
    exact ⟨logged_run FloatRing.ended_code (freshMem buf) sched, q,
      queueTrace_of_replays FloatRing.sided_did hsound.replays⟩

section OneCell

theorem zero_lt_wordBits : 0 < 64 := by decide

-- One cell: the second push is refused, the first item is popped, and then nothing is there.
def oneCell : Capacity :=
  ⟨0, zero_lt_wordBits⟩

def bytePod : Pod UInt8 Unit UInt8 :=
  ⟨FloatRing.layout UInt8, [()], fun _ => List.mem_singleton.mpr rfl⟩

def oneCellSched : List ((i : Side) × SpscRing.Call UInt8 Unit UInt8 i) :=
  List.replicate 5 ⟨.producer, .push 7⟩ ++ List.replicate 3 ⟨.producer, .push 8⟩
    ++ List.replicate 5 ⟨.consumer, .pop fun _ => 0⟩ ++ List.replicate 3 ⟨.consumer, .pop fun _ => 0⟩

theorem shellRings_queues_oneCell
    : let c := (system (SpscRing.code oneCell bytePod)).run (idle (freshMem fun _ _ => 0))
        oneCellSched
      c.trace.filterMap (result SpscRing.did)
          = [.added [7] 1, .added [8] 0, .took 1 [7], .took 1 []]
        ∧ ∃ q, QueueTrace oneCell SpscRing.did c.trace q
          ∧ addedItems SpscRing.did c.trace = takenItems SpscRing.did c.trace ++ q.items :=
  ⟨rfl, (shellRings_queues.1 UInt8 Unit UInt8 oneCell bytePod (fun _ _ => 0) oneCellSched).2⟩

end OneCell

end Harp
