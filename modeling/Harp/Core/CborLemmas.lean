import Harp.Core.Cbor

/-!
This module contains the round trips of the CBOR codec: what an encoder appends, the matching
decoder reads back and leaves the decoder at the bytes behind it, and what a decoder has read is read
with any bytes behind it.
-/

namespace Harp

section LittleEndian

theorem leNat_leBytes (v len : Nat) : leNat (leBytes v len) = v % 256 ^ len := by
  induction len generalizing v with
  | zero =>
    simp [leBytes, leNat]
    omega
  | succ len ih =>
    have hmod : v % (256 * 256 ^ len) = v % 256 + 256 * (v / 256 % 256 ^ len) := Nat.mod_mul
    rw [leBytes, leNat, ih, UInt8.toNat_ofNat', Nat.pow_succ 256, Nat.mul_comm (256 ^ len), hmod]
    omega

theorem length_leBytes (v len : Nat) : (leBytes v len).length = len := by
  induction len generalizing v with
  | zero => rfl
  | succ len ih => rw [leBytes, List.length_cons, ih]

end LittleEndian

namespace Dec

theorem bind_eq (x : Dec α) (f : α → Dec β) : (x >>= f) = Dec.bind x f := rfl

theorem pure_eq (a : α) : (Pure.pure a : Dec α) = Dec.pure a := rfl

@[simp]
theorem pure_apply (a : α) (d : Cdec) : Dec.pure a d = (some a, d) := rfl

@[simp]
theorem error_apply (d : Cdec) : (Dec.error d : Option α × Cdec) = (none, { d with err := true }) := rfl

@[simp]
theorem fail_apply (d : Cdec) : (Dec.fail d : Option α × Cdec) = (none, d) := rfl

theorem bind_of_some {x : Dec α} {f : α → Dec β} {d d' : Cdec} {a : α} (h : x d = (some a, d'))
    : Dec.bind x f d = f a d' := by
  simp [Dec.bind, h]

theorem bind_of_none {x : Dec α} {f : α → Dec β} {d d' : Cdec} (h : x d = (none, d'))
    : Dec.bind x f d = (none, d') := by
  simp [Dec.bind, h]

theorem bind_inv {x : Dec α} {f : α → Dec β} {d d' : Cdec} {b : β}
    (h : Dec.bind x f d = (some b, d')) : ∃ a d₁, x d = (some a, d₁) ∧ f a d₁ = (some b, d') := by
  rcases hx : x d with ⟨o, d₁⟩
  cases o with
  | none =>
    rw [bind_of_none hx] at h
    cases h
  | some a =>
    rw [bind_of_some hx] at h
    exact ⟨a, d₁, rfl, h⟩

@[simp]
theorem loop_zero (body : σ → Dec σ) (s : σ) (d : Cdec) : loop 0 body s d = (some s, d) := rfl

theorem loop_succ (n : Nat) (body : σ → Dec σ) (s : σ)
    : loop (n + 1) body s = Dec.bind (body s) (fun s => loop n body s) := rfl

theorem loop_succ_of_some {n : Nat} {body : σ → Dec σ} {s s' : σ} {d d' : Cdec}
    (h : body s d = (some s', d'))
    : loop (n + 1) body s d = loop n body s' d' := by
  rw [loop_succ]
  exact bind_of_some h

-- What every pass of the body keeps holds of what the loop returns.
theorem loop_inv {I : σ → Prop} {body : σ → Dec σ}
    (hbody : ∀ s d s' d', I s → body s d = (some s', d') → I s') (n : Nat) {s s' : σ} {d d' : Cdec}
    (hs : I s) (h : loop n body s d = (some s', d')) : I s' := by
  induction n generalizing s d with
  | zero =>
    cases h
    exact hs
  | succ n ih =>
    rw [loop_succ] at h
    rcases bind_inv h with ⟨s₁, d₁, hstep, hrest⟩
    exact ih (hbody s d s₁ d₁ hs hstep) hrest

end Dec

theorem length_beBytes (v n : Nat) : (beBytes v n).length = n := by
  induction n with
  | zero => rfl
  | succ n ih => simp [beBytes, ih]

theorem beNat_append_singleton (bs : Bytes) (b : UInt8)
    : beNat (bs ++ [b]) = beNat bs * 256 + b.toNat := by
  simp [beNat, Nat.shiftLeft_eq]

theorem beNat_foldl (bs : Bytes) (v : Nat)
    : bs.foldl (fun v b => v <<< 8 + b.toNat) v = v * 256 ^ bs.length + beNat bs := by
  induction bs using List.reverseRecOn with
  | nil => simp [beNat]
  | append_singleton bs b ih =>
    rw [List.foldl_append, ih, beNat_append_singleton]
    simp only [List.foldl_cons, List.foldl_nil, List.length_append, List.length_singleton,
      Nat.shiftLeft_eq, Nat.pow_succ]
    ring

theorem beNat_cons (b : UInt8) (bs : Bytes)
    : beNat (b :: bs) = b.toNat * 256 ^ bs.length + beNat bs := by
  rw [← beNat_foldl]
  simp [beNat]

theorem beNat_beBytes (v n : Nat) : beNat (beBytes v n) = v % 256 ^ n := by
  induction n with
  | zero =>
    simp [beBytes, beNat]
    omega
  | succ n ih =>
    rw [beBytes, beNat_cons, ih, length_beBytes]
    have hshift : v >>> (8 * n) = v / 256 ^ n := by
      rw [Nat.shiftRight_eq_div_pow, Nat.pow_mul]
    have hsplit : v % (256 ^ n * 256) = v % 256 ^ n + 256 ^ n * (v / 256 ^ n % 256) := Nat.mod_mul
    rw [hshift, UInt8.toNat_ofNat', Nat.pow_succ 256 n, hsplit, Nat.mul_comm (256 ^ n), Nat.add_comm]

theorem beNat_lt (bs : Bytes) : beNat bs < 256 ^ bs.length := by
  induction bs with
  | nil => simp [beNat]
  | cons b bs ih =>
    rw [beNat_cons, List.length_cons, Nat.pow_succ]
    have hb : b.toNat < 256 := b.toNat_lt
    calc b.toNat * 256 ^ bs.length + beNat bs
        < b.toNat * 256 ^ bs.length + 256 ^ bs.length := by omega
      _ = (b.toNat + 1) * 256 ^ bs.length := by ring
      _ ≤ 256 * 256 ^ bs.length := Nat.mul_le_mul_right _ (by omega)
      _ = 256 ^ bs.length * 256 := by ring

theorem need_of_le {n : Nat} {p : Bytes} (h : n ≤ p.length)
    : need n ⟨p, false⟩ = (some (), ⟨p, false⟩) := by
  simp [need, Nat.not_lt.mpr h]

theorem advance_append (bs rest : Bytes) (err : Bool)
    : advance bs.length ⟨bs ++ rest, err⟩ = (some bs, ⟨rest, err⟩) := by
  simp [advance]

theorem advance_cons (b : UInt8) (rest : Bytes) (err : Bool)
    : advance 1 ⟨b :: rest, err⟩ = (some [b], ⟨rest, err⟩) :=
  advance_append [b] rest err

theorem readHead_arg {major ai n : Nat} {bs rest : Bytes} (h : bs.length = n)
    : readHead.arg major ai n ⟨bs ++ rest, false⟩ = (some ⟨major, ai, beNat bs⟩, ⟨rest, false⟩) := by
  subst h
  unfold readHead.arg
  rw [Dec.bind_eq, Dec.bind_of_some (need_of_le (by simp)), Dec.bind_eq,
    Dec.bind_of_some (advance_append bs rest false)]
  rfl

theorem readHead_cons {major ai : Nat} (rest : Bytes) (hm : major < 8) (hai : ai < 32)
    : readHead ⟨UInt8.ofNat (major <<< 5 + ai) :: rest, false⟩
        = (if ai < 24 then
            Dec.pure ⟨major, ai, ai⟩
          else if ai = 24 then readHead.arg major ai 1
          else if ai = 25 then readHead.arg major ai 2
          else if ai = 26 then readHead.arg major ai 4
          else if ai = 27 then readHead.arg major ai 8
          else Dec.error) ⟨rest, false⟩ := by
  have hib : beNat [UInt8.ofNat (major <<< 5 + ai)] = major * 32 + ai := by
    simp only [beNat, List.foldl_cons, List.foldl_nil, UInt8.toNat_ofNat', Nat.shiftLeft_eq]
    omega
  have hmajor : (major * 32 + ai) >>> 5 = major := by
    rw [Nat.shiftRight_eq_div_pow]
    omega
  have hmod : (major * 32 + ai) % 32 = ai := by
    omega
  unfold readHead
  rw [Dec.bind_eq, Dec.bind_of_some (need_of_le (by simp)), Dec.bind_eq,
    Dec.bind_of_some (advance_cons (UInt8.ofNat (major <<< 5 + ai)) rest false)]
  simp only [hib, hmajor, hmod, Dec.pure_eq]

theorem mul_length_le_flatMap {enc : β → Bytes} {n : Nat} (items : List β)
    (h : ∀ b ∈ items, n ≤ (enc b).length) : n * items.length ≤ (items.flatMap enc).length := by
  induction items with
  | nil => simp
  | cons b items ih =>
    have hb := h b List.mem_cons_self
    have htail := ih (fun b' hb' => h b' (List.mem_cons_of_mem b hb'))
    rw [List.length_cons, List.flatMap_cons, List.length_append, Nat.mul_succ]
    omega

theorem putHead_ne_nil (major v : Nat) : putHead major v ≠ [] := by
  unfold putHead
  repeat' split
  all_goals simp

theorem readHead_putHead {major v : Nat} (rest : Bytes) (hm : major < 8) (hv : v < 2 ^ 64)
    : ∃ ai, readHead ⟨putHead major v ++ rest, false⟩ = (some ⟨major, ai, v⟩, ⟨rest, false⟩) := by
  unfold putHead
  split
  next h =>
    exists v
    rw [List.singleton_append, readHead_cons rest hm (by omega)]
    simp [h]
  next =>
    split
    next h =>
      exists 24
      rw [List.cons_append, readHead_cons _ hm (by omega)]
      simp only [Nat.lt_irrefl, if_false, if_true]
      rw [readHead_arg (length_beBytes v 1), beNat_beBytes, Nat.mod_eq_of_lt (by omega)]
    next =>
      split
      next h =>
        exists 25
        rw [List.cons_append, readHead_cons _ hm (by omega)]
        simp only [Nat.reduceLT, Nat.reduceEqDiff, if_false, if_true]
        rw [readHead_arg (length_beBytes v 2), beNat_beBytes, Nat.mod_eq_of_lt (by omega)]
      next =>
        split
        next h =>
          exists 26
          rw [List.cons_append, readHead_cons _ hm (by omega)]
          simp only [Nat.reduceLT, Nat.reduceEqDiff, if_false, if_true]
          rw [readHead_arg (length_beBytes v 4), beNat_beBytes, Nat.mod_eq_of_lt (by omega)]
        next =>
          exists 27
          rw [List.cons_append, readHead_cons _ hm (by omega)]
          simp only [Nat.reduceLT, Nat.reduceEqDiff, if_false, if_true]
          rw [readHead_arg (length_beBytes v 8), beNat_beBytes, Nat.mod_eq_of_lt (by omega)]

theorem cdecUint_cborUint {v : Nat} (rest : Bytes) (hv : v < 2 ^ 64)
    : cdecUint ⟨cborUint v ++ rest, false⟩ = (some v, ⟨rest, false⟩) := by
  rcases readHead_putHead rest (Nat.zero_lt_succ 7) hv with ⟨ai, h⟩
  unfold cdecUint cborUint
  rw [Dec.bind_eq, Dec.bind_of_some h]
  rfl

theorem readString_putHead {major : Nat} (s rest : Bytes) (hm : major < 8) (hs : s.length < 2 ^ 64)
    : readString major ⟨putHead major s.length ++ s ++ rest, false⟩ = (some s, ⟨rest, false⟩) := by
  rcases readHead_putHead (s ++ rest) hm hs with ⟨ai, h⟩
  unfold readString
  rw [List.append_assoc, Dec.bind_eq, Dec.bind_of_some h]
  simp [advance]

theorem cdecBytes_cborBytes (s rest : Bytes) (hs : s.length < 2 ^ 64)
    : cdecBytes ⟨cborBytes s ++ rest, false⟩ = (some s, ⟨rest, false⟩) :=
  readString_putHead s rest (by omega) hs

theorem cdecText_cborText (s rest : Bytes) (hs : s.length < 2 ^ 64)
    : cdecText ⟨cborText s ++ rest, false⟩ = (some s, ⟨rest, false⟩) :=
  readString_putHead s rest (by omega) hs

theorem cdecArray_cborArray {n : Nat} (rest : Bytes) (hn : n < 2 ^ 64) (hlen : n ≤ rest.length)
    : cdecArray ⟨cborArray n ++ rest, false⟩ = (some n, ⟨rest, false⟩) := by
  rcases readHead_putHead rest (show 4 < 8 by omega) hn with ⟨ai, h⟩
  unfold cdecArray readCount cborArray
  rw [Dec.bind_eq, Dec.bind_of_some h]
  simp [Nat.not_lt.mpr hlen]

theorem cdecMap_cborMap {n : Nat} (rest : Bytes) (hn : n < 2 ^ 63) (hlen : n * 2 ≤ rest.length)
    : cdecMap ⟨cborMap n ++ rest, false⟩ = (some n, ⟨rest, false⟩) := by
  rcases readHead_putHead rest (show 5 < 8 by omega) (show n < 2 ^ 64 by omega) with ⟨ai, h⟩
  unfold cdecMap readCount cborMap
  rw [Dec.bind_eq, Dec.bind_of_some h]
  have hcost : ¬ rest.length < n * 2 % 2 ^ 64 := by
    omega
  simp only [ne_eq, not_true_eq_false, if_false, if_true]
  rw [if_neg hcost]
  rfl

theorem cdecBool_cborBool (v : Bool) (rest : Bytes)
    : cdecBool ⟨cborBool v ++ rest, false⟩ = (some v, ⟨rest, false⟩) := by
  unfold cdecBool
  rw [Dec.bind_eq, Dec.bind_of_some (need_of_le (by simp [cborBool]))]
  cases v <;> simp [cborBool]

theorem cdecNull_cborNull (rest : Bytes)
    : cdecNull ⟨cborNull ++ rest, false⟩ = (some (), ⟨rest, false⟩) := by
  unfold cdecNull
  rw [Dec.bind_eq, Dec.bind_of_some (need_of_le (by simp [cborNull]))]
  simp [cborNull]

section Extends

-- What has been read stays so with more bytes behind it.
def Dec.Extends (x : Dec α) : Prop :=
  ∀ p q err a d', x ⟨p, err⟩ = (some a, d') → x ⟨p ++ q, err⟩ = (some a, ⟨d'.p ++ q, d'.err⟩)

namespace Dec.Extends

theorem pure (a : α) : Extends (Dec.pure a) := by
  intro p q err a' d' h
  cases h
  rfl

theorem fail : Extends (Dec.fail : Dec α) := by
  intro p q err a d' h
  cases h

theorem error : Extends (Dec.error : Dec α) := by
  intro p q err a d' h
  cases h

theorem bind {x : Dec α} {f : α → Dec β} (hx : Extends x) (hf : ∀ a, Extends (f a))
    : Extends (Dec.bind x f) := by
  intro p q err b d' h
  rcases Dec.bind_inv h with ⟨a, d₁, hread, hrest⟩
  rw [Dec.bind_of_some (hx p q err a d₁ hread)]
  exact hf a d₁.p q d₁.err b d' hrest

theorem loop {body : σ → Dec σ} (hbody : ∀ s, Extends (body s)) (n : Nat) (s : σ)
    : Extends (Dec.loop n body s) := by
  induction n generalizing s with
  | zero => exact pure s
  | succ n ih => exact bind (hbody s) ih

theorem ite {c : Prop} [Decidable c] {x y : Dec α} (hx : Extends x) (hy : Extends y)
    : Extends (if c then x else y) := by
  split
  . exact hx
  . exact hy

-- No more is taken than was asked for.
theorem take {n : Nat} {f : Bytes → Dec α} (hf : ∀ bs, Extends (f bs))
    : Extends (fun d => if d.p.length < n then Dec.error d else Dec.bind (advance n) f d) := by
  intro p q err a d' h
  dsimp only at h ⊢
  split at h
  . cases h
  next hlen =>
    have hlen' : ¬ (p ++ q).length < n := by
      rw [List.length_append]
      omega
    rw [if_neg hlen']
    have htake : advance n ⟨p ++ q, err⟩ = (some (p.take n), ⟨p.drop n ++ q, err⟩) := by
      unfold advance
      rw [List.take_append_of_le_length (by omega), List.drop_append_of_le_length (by omega)]
    rw [Dec.bind_of_some htake]
    exact hf _ (p.drop n) q err a d' h

theorem needed {n : Nat} {f : Bytes → Dec α} (hf : ∀ bs, Extends (f bs))
    : Extends (Dec.bind (need n) (fun _ => Dec.bind (advance n) f)) := by
  intro p q err a d' h
  rcases Dec.bind_inv h with ⟨_, d₁, hneed, hrest⟩
  unfold need at hneed
  split at hneed
  . cases hneed
  next hguard =>
    cases hneed
    simp only [Bool.or_eq_true, decide_eq_true_eq, not_or, Bool.not_eq_true] at hguard
    have hneed' : need n ⟨p ++ q, err⟩ = (some (), ⟨p ++ q, err⟩) := by
      rw [hguard.1]
      apply need_of_le
      rw [List.length_append]
      omega
    rw [Dec.bind_of_some hneed']
    have htake := take (n := n) hf p q err a d'
    dsimp only at htake
    rw [if_neg hguard.2, if_neg (by rw [List.length_append]; omega)] at htake
    exact htake hrest

end Dec.Extends

open Dec.Extends

theorem readHead_extends : Dec.Extends readHead := by
  have harg : ∀ major ai n, Dec.Extends (readHead.arg major ai n) := fun major ai n =>
    needed fun bs => pure _
  refine needed fun ib => ?_
  dsimp only
  exact ite (pure _) (ite (harg _ _ _) (ite (harg _ _ _) (ite (harg _ _ _) (ite (harg _ _ _) error))))

theorem cdecUint_extends : Dec.Extends cdecUint :=
  bind readHead_extends fun _ => ite error (pure _)

theorem readString_extends (major : Nat) : Dec.Extends (readString major) := by
  refine bind readHead_extends fun h => ?_
  by_cases hmajor : h.major ≠ major
  . have herror : (fun d : Cdec => if h.major ≠ major ∨ d.p.length < h.val then Dec.error d
        else advance h.val d) = Dec.error := by
      funext d
      rw [if_pos (.inl hmajor)]
    rw [herror]
    exact error
  . have htake : (fun d : Cdec => if h.major ≠ major ∨ d.p.length < h.val then Dec.error d
        else advance h.val d)
        = fun d => if d.p.length < h.val then Dec.error d
          else Dec.bind (advance h.val) Dec.pure d := by
      funext d
      simp only [hmajor, false_or]
      rfl
    rw [htake]
    exact take pure

theorem readCount_extends (major : Nat) : Dec.Extends (readCount major) := by
  refine bind readHead_extends fun h => ite error ?_
  dsimp only
  intro p q err a d' hread
  dsimp only at hread ⊢
  generalize (if major = 5 then h.val * 2 % 2 ^ 64 else h.val) = cost at hread ⊢
  split at hread
  . cases hread
  next hlen =>
    cases hread
    rw [if_neg (by rw [List.length_append]; omega)]
    rfl

theorem skipItem_extends (levels : Nat) : Dec.Extends (skipItem levels) := by
  induction levels with
  | zero => exact error
  | succ levels ih =>
    refine bind readHead_extends fun h => ?_
    refine ite (pure _) (ite ?_ (ite (loop (fun _ => ih) _ _) (ite (loop (fun _ => ih) _ _)
      (ite ih (pure _)))))
    exact take (f := fun _ => Dec.pure ()) fun _ => pure ()

theorem cdecBool_extends : Dec.Extends cdecBool := by
  intro p q err a d' h
  rcases Dec.bind_inv h with ⟨_, d₁, hneed, hrest⟩
  cases p with
  | nil =>
    unfold need at hneed
    simp at hneed
  | cons b p =>
    cases err with
    | true => cases hneed
    | false =>
      cases hneed
      have hneed' : need 1 ⟨b :: p ++ q, false⟩ = (some (), ⟨b :: p ++ q, false⟩) :=
        need_of_le (by simp)
      unfold cdecBool
      rw [Dec.bind_eq, Dec.bind_of_some hneed']
      simp only [List.cons_append, List.head?_cons, List.drop_succ_cons, List.drop_zero]
        at hrest ⊢
      split at hrest
      next hb =>
        cases hrest
        rw [if_pos hb]
      next hb =>
        rw [if_neg hb]
        split at hrest
        next hb' =>
          cases hrest
          rw [if_pos hb']
        next => cases hrest

theorem cdecNull_extends : Dec.Extends cdecNull := by
  intro p q err a d' h
  rcases Dec.bind_inv h with ⟨_, d₁, hneed, hrest⟩
  cases p with
  | nil =>
    unfold need at hneed
    simp at hneed
  | cons b p =>
    cases err with
    | true => cases hneed
    | false =>
      cases hneed
      have hneed' : need 1 ⟨b :: p ++ q, false⟩ = (some (), ⟨b :: p ++ q, false⟩) :=
        need_of_le (by simp)
      unfold cdecNull
      rw [Dec.bind_eq, Dec.bind_of_some hneed']
      simp only [List.cons_append, List.head?_cons, List.drop_succ_cons, List.drop_zero]
        at hrest ⊢
      split at hrest
      next => cases hrest
      next hb =>
        cases hrest
        rw [if_neg hb]

end Extends

end Harp
