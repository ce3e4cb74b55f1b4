import Harp.Core.Sha256Nat
import Harp.Host.FetchClosure
import Harp.Host.PushComplete
import Harp.Lib.Levels

/-!
This module contains the contract of a fetch: when it returns 0, which objects of the closure the
local store holds.
-/

namespace Harp

section Want

theorem mem_wantHashes {s : Store} {x : Hash} (want queue : List Hash)
    (hx : x ∈ wantHashes s want.length ⟨want.flatMap (fun h => cborBytes h.b), false⟩ queue)
    : x ∈ queue ∨ x ∈ want := by
  induction want generalizing queue with
  | nil => exact .inl hx
  | cons h want ih =>
    rw [List.length_cons, List.flatMap_cons] at hx
    unfold wantHashes at hx
    rw [hashRead_cborBytes] at hx
    split at hx
    next h' b heq =>
      split at heq
      . cases heq
        cases ih _ hx with
        | inl hx =>
          split at hx
          . rw [List.mem_append, List.mem_singleton] at hx
            cases hx with
            | inl hx => exact .inl hx
            | inr hx =>
              rw [hx]
              exact .inr List.mem_cons_self
          . exact .inl hx
        | inr hx => exact .inr (List.mem_cons_of_mem _ hx)
      . cases heq
    next => exact .inl hx

-- The device queues nothing that was not asked for.
theorem mem_handleStateWant {s : Store} {want : List Hash} {x : Hash}
    (hlen : want.length ≤ fetchBatch) (hx : x ∈ handleStateWant s (some (wantRequest want)))
    : x ∈ want := by
  unfold handleStateWant wantRequest at hx
  have hbytes : want.length ≤ (want.flatMap (fun h => cborBytes h.b)).length := by
    apply length_le_flatMap
    intro h
    simp [cborBytes, h.len]
  have hbound : want.length < 2 ^ 64 := by
    unfold fetchBatch at hlen
    omega
  dsimp only at hx
  rw [firstArray_eq _ hbound hbytes] at hx
  dsimp only at hx
  cases mem_wantHashes want [] hx with
  | inl hx => contradiction
  | inr hx => exact hx

theorem pumpWanted_true {dev s s' : Store} {put : Hash → WriteIo} {want queue : List Hash}
    {frames : List Bool} {spins : Nat}
    (h : pumpWanted dev put want queue frames spins s = (true, s'))
    : want.all (storeHave s') = true
        ∧ ∃ sent, (∀ x ∈ sent, x ∈ queue) ∧ s' = receive dev put s sent := by
  induction frames generalizing queue spins s with
  | nil =>
    unfold pumpWanted at h
    split at h
    next hall =>
      cases h
      exact ⟨hall, [], by simp, rfl⟩
    next => split at h <;> cases h
  | cons frame frames ih =>
    unfold pumpWanted at h
    split at h
    next hall =>
      cases h
      exact ⟨hall, [], by simp, rfl⟩
    next =>
      split at h
      . cases h
      . cases frame with
        | false => exact ih h
        | true =>
          cases queue with
          | nil => cases h
          | cons x queue =>
            rcases ih h with ⟨hall, sent, hsent, hs'⟩
            refine ⟨hall, x :: sent, ?_, ?_⟩
            . intro y hy
              rw [List.mem_cons] at hy
              cases hy with
              | inl hy =>
                rw [hy]
                exact List.mem_cons_self
              | inr hy => exact List.mem_cons_of_mem _ (hsent y hy)
            . rw [hs']
              rfl

variable {dev : Store} {put : Hash → WriteIo}

-- Where `s` has a readable object for `x`, it has the bytes that `x` is the hash of.
def Genuine (s : Store) (x : Hash) : Prop :=
  ∀ enc, storeGet s x = some enc → hashCompute enc = x

-- A round that succeeds has fetched what was wanted and nothing else; the bytes on disk are those
-- the writes left.
structure Fetched (dev : Store) (put : Hash → WriteIo) (want : List Hash) (s s' : Store) : Prop where
  held : ∀ x ∈ want, storeHave s' x = true
  got : ∀ x ∈ want, storeHave s x = false →
    ∃ enc, storeGet dev x = some enc ∧ storeGet s' x = some ((put x).onDisk enc)
  kept : ∀ x, storeHave s x = true ∨ x ∉ want → objFile s' x = objFile s x

theorem fetchWanted_true {want : List Hash} {round : FetchRound} {s s' : Store}
    (hlen : want.length ≤ fetchBatch) (hgenuine : ∀ x ∈ want, Genuine dev x)
    (h : fetchWanted dev put want round s = (true, s')) : Fetched dev put want s s' := by
  unfold fetchWanted at h
  split at h
  next hempty =>
    cases h
    rw [List.isEmpty_iff] at hempty
    subst hempty
    refine ⟨by simp, by simp, ?_⟩
    intro x _
    rfl
  next =>
    split at h
    . cases h
    . dsimp only at h
      rcases pumpWanted_true h with ⟨hall, sent, hsent, rfl⟩
      rw [List.all_eq_true] at hall
      have hwant : ∀ x ∈ sent, x ∈ want := by
        intro x hx
        have hmem := hsent x hx
        unfold sendqFlush at hmem
        rw [List.mem_filter] at hmem
        exact mem_handleStateWant hlen hmem.1
      -- what is delivered as `x` was sent as `x`
      have hfile : ∀ x, storeHave s x = false →
          (x ∈ want ∧ ∃ enc, storeGet dev x = some enc
              ∧ storeGet (receive dev put s sent) x = some ((put x).onDisk enc))
            ∨ objFile (receive dev put s sent) x = objFile s x := by
        intro x hnot
        have hobj := objFile_receive dev put s sent x
        rw [hnot, if_neg Bool.false_ne_true] at hobj
        cases hfind : sent.find? (delivers dev put x) with
        | none =>
          rw [hfind] at hobj
          exact .inr hobj
        | some y =>
          rw [hfind] at hobj
          obtain ⟨enc, henc, _, hx⟩ := delivers_iff.mp (List.find?_some hfind)
          have hy := hwant y (List.mem_of_find?_eq_some hfind)
          have hxy : y = x := by
            rw [hx]
            exact (hgenuine y hy enc henc).symm
          subst hxy
          refine .inl ⟨hy, enc, henc, ?_⟩
          unfold storeGet
          rw [hobj, Option.bind_some, henc]
          rfl
      refine ⟨hall, ?_, ?_⟩
      . intro x hx hnot
        rcases hfile x hnot with ⟨_, henc⟩ | hobj
        . exact henc
        . have hhave := hall x hx
          rw [storeHave_congr hobj, hnot] at hhave
          cases hhave
      . intro x hor
        cases hhave : storeHave s x with
        | true => rw [objFile_receive, hhave, if_pos rfl]
        | false =>
          rcases hfile x hhave with ⟨hx, _⟩ | hobj
          . rcases hor with htrue | hnot
            . rw [hhave] at htrue
              cases htrue
            . exact absurd hx hnot
          . exact hobj

end Want

section Levels

open Levels

-- The children the walk finds: those of the local copy of an object if there is one.
def fetchChildren (local_ dev : Store) (x : Hash) : List Hash :=
  if storeHave local_ x then storeChildren local_ x else storeChildren dev x

def lacking (s : Store) (level : List Hash) : List Hash :=
  level.filter (fun x => !storeHave s x)

def fetchLevels (local_ dev : Store) (root : Hash) : List (List Hash) :=
  levels clientMaxClosure (fetchChildren local_ dev) root

-- The level lacks no more than one batch, and nothing is lost of what is written for it.
structure LevelSafe (local_ dev : Store) (put : Hash → WriteIo) (level : List Hash) : Prop where
  batch : (lacking local_ level).length ≤ fetchBatch
  whole : ∀ x ∈ lacking local_ level, ∀ enc, storeGet dev x = some enc → (put x).keeps enc = true

-- What is beyond the listed objects is there already.
structure FetchSafe (local_ dev : Store) (root : Hash) (put : Hash → WriteIo) : Prop where
  safe : ∀ level ∈ fetchLevels local_ dev root, LevelSafe local_ dev put level
  covered : ∀ x, Reach dev root x → storeHave local_ x = true
    ∨ x ∈ (fetchLevels local_ dev root).flatten

-- `x` was there before, or the device's object is there now.
def Got (before dev after : Store) (x : Hash) : Prop :=
  storeHave after x = true ∧ (storeHave before x = false → storeGet after x = storeGet dev x)

def FetchComplete (local_ dev : Store) (root : Hash) (io : FetchIo) : Prop :=
  ∀ x, Reach dev root x → Got local_ dev (fetchClosure local_ dev root io).2 x

-- What `s` can read of `x` is the device's object, or the front part of it.
def FrontOf (s dev : Store) (x : Hash) : Prop :=
  ∀ enc, storeGet s x = some enc → ∃ whole, storeGet dev x = some whole ∧ enc <+: whole

theorem expandPending_eq (s : Store) (seg pending : List Hash)
    : expandPending s seg pending = expand clientMaxClosure (storeChildren s) seg pending := by
  unfold expandPending expand
  congr 1
  funext pending h
  unfold storeChildren
  cases storeGet s h with
  | none => rfl
  | some enc =>
    dsimp only
    rw [objForeachChild_listCollect, foldl_childStep]

theorem storeChildren_congr {s s' : Store} {x : Hash} (h : objFile s' x = objFile s x)
    : storeChildren s' x = storeChildren s x := by
  unfold storeChildren storeGet
  rw [h]

theorem frontOf_congr {s s' dev : Store} {x : Hash} (h : objFile s' x = objFile s x)
    (hfront : FrontOf s dev x) : FrontOf s' dev x := by
  unfold FrontOf storeGet
  rw [h]
  exact hfront

theorem child_of_frontOf {s dev : Store} {x y : Hash} (h : FrontOf s dev x)
    (hy : y ∈ storeChildren s x) : Child dev x y := by
  unfold storeChildren at hy
  cases hget : storeGet s x with
  | none =>
    rw [hget] at hy
    cases hy
  | some enc =>
    rw [hget] at hy
    obtain ⟨whole, hdev, rest, hwhole⟩ := h enc hget
    refine ⟨whole, hdev, ?_⟩
    rw [← hwhole]
    exact (objChildren_append enc rest).subset hy

theorem Fetched.front {put : Hash → WriteIo} {s s' dev : Store} {want : List Hash} {x : Hash}
    (h : Fetched dev put want s s') (hfront : FrontOf s dev x) : FrontOf s' dev x := by
  by_cases hkept : storeHave s x = true ∨ x ∉ want
  . exact frontOf_congr (h.kept x hkept) hfront
  . rw [not_or, Bool.not_eq_true, Decidable.not_not] at hkept
    obtain ⟨whole, hdev, hget⟩ := h.got x hkept.2 hkept.1
    intro enc henc
    rw [hget] at henc
    cases henc
    exact ⟨whole, hdev, WriteIo.onDisk_prefix ..⟩

variable {l dev : Store} {put : Hash → WriteIo} {root : Hash}

-- The walk stays within the closure.
structure WalkedOver (dev : Store) (root : Hash) (pending : List Hash) (s : Store) : Prop where
  nodup : pending.Nodup
  bound : pending.length ≤ clientMaxClosure
  reach : ∀ x ∈ pending, Reach dev root x
  front : ∀ x, Reach dev root x → FrontOf s dev x

theorem WalkedOver.grown {pending seg : List Hash} {s : Store} (h : WalkedOver dev root pending s)
    (hseg : ∀ x ∈ seg, Reach dev root x)
    : Grown clientMaxClosure (Reach dev root) pending (expandPending s seg pending) := by
  rw [expandPending_eq]
  apply expand_grown
  intro x hx y hy
  exact (hseg x hx).tail (child_of_frontOf (h.front x (hseg x hx)) hy)

theorem WalkedOver.fetched {pending want : List Hash} {s s' : Store} (h : WalkedOver dev root pending s)
    (hfetched : Fetched dev put want s s') : WalkedOver dev root pending s' :=
  ⟨h.nodup, h.bound, h.reach, fun x hx => hfetched.front (h.front x hx)⟩

theorem WalkedOver.expand {pending seg : List Hash} {s : Store} (h : WalkedOver dev root pending s)
    (hseg : ∀ x ∈ seg, Reach dev root x) : WalkedOver dev root (expandPending s seg pending) s := by
  have hgrown := h.grown hseg
  refine ⟨hgrown.nodup h.nodup, hgrown.bound h.bound, ?_, h.front⟩
  intro x hx
  cases hgrown.new x hx with
  | inl hx => exact h.reach x hx
  | inr hx => exact hx

theorem not_mem_drop_of_mem_take {pending : List Hash} {cursor : Nat} {x : Hash}
    (hnodup : pending.Nodup) (hx : x ∈ pending.take cursor) : x ∉ pending.drop cursor := by
  rw [← List.take_append_drop cursor pending, List.nodup_append] at hnodup
  intro hdrop
  exact hnodup.2.2 x hx x hdrop rfl

theorem length_batch (seg : List Hash) (s : Store)
    : ((lacking s seg).take fetchBatch).length ≤ fetchBatch := by
  rw [List.length_take]
  omega

theorem mem_lacking {s : Store} {level : List Hash} {x : Hash}
    : x ∈ lacking s level ↔ x ∈ level ∧ storeHave s x = false := by
  unfold lacking
  rw [List.mem_filter, Bool.not_eq_true']

section Loop

variable {rounds : List FetchRound} {round : FetchRound} {cursor got n : Nat} {pending : List Hash}
  {s s' : Store}

-- The next round, and the walk after it.
theorem fetchLoop_cons (hgenuine : ∀ x, Reach dev root x → Genuine dev x) (hlt : cursor < pending.length)
    (hwalked : WalkedOver dev root pending s)
    (h : fetchLoop dev put (round :: rounds) cursor pending got s = (some n, s'))
    : ∃ s₁ got₁, Fetched dev put ((lacking s (pending.drop cursor)).take fetchBatch) s s₁
        ∧ WalkedOver dev root (expandPending s₁ (pending.drop cursor) pending) s₁
        ∧ pending <+: expandPending s₁ (pending.drop cursor) pending
        ∧ fetchLoop dev put rounds pending.length
            (expandPending s₁ (pending.drop cursor) pending) got₁ s₁ = (some n, s') := by
  unfold fetchLoop at h
  rw [if_pos hlt] at h
  dsimp only at h
  have hseg : ∀ x ∈ pending.drop cursor, Reach dev root x :=
    fun x hx => hwalked.reach x (List.mem_of_mem_drop hx)
  split at h
  . cases h
  next s₁ hround =>
    have hfetched := fetchWanted_true (length_batch (pending.drop cursor) s)
      (fun x hx => hgenuine x (hseg x (mem_lacking.mp (List.mem_of_mem_take hx)).1)) hround
    have hwalked₁ := hwalked.fetched hfetched
    exact ⟨s₁, _, hfetched, hwalked₁.expand hseg, (hwalked₁.grown hseg).pre, h⟩

theorem fetchLoop_of_le (hle : pending.length ≤ cursor)
    (h : fetchLoop dev put rounds cursor pending got s = (some n, s')) : s' = s := by
  unfold fetchLoop at h
  rw [if_neg (Nat.not_lt.mpr hle)] at h
  cases h
  rfl

-- What is held, and what the cursor has passed, is never asked for again.
theorem fetchLoop_passed (hgenuine : ∀ x, Reach dev root x → Genuine dev x)
    (h : fetchLoop dev put rounds cursor pending got s = (some n, s'))
    (hwalked : WalkedOver dev root pending s) {x : Hash}
    (hx : storeHave s x = true ∨ x ∈ pending.take cursor) : objFile s' x = objFile s x := by
  induction rounds generalizing cursor pending got s with
  | nil =>
    unfold fetchLoop at h
    split at h
    . cases h
    . cases h
      rfl
  | cons round rounds ih =>
    by_cases hlt : cursor < pending.length
    . obtain ⟨s₁, got₁, hfetched, hwalked₁, hpre, hrest⟩ := fetchLoop_cons hgenuine hlt hwalked h
      have hobj : objFile s₁ x = objFile s x := by
        apply hfetched.kept
        refine hx.imp_right fun htake hwant => ?_
        have hseg := (mem_lacking.mp (List.mem_of_mem_take hwant)).1
        exact not_mem_drop_of_mem_take hwalked.nodup htake hseg
      rw [ih hrest hwalked₁, hobj]
      rw [storeHave_congr hobj]
      refine hx.imp_right fun htake => ?_
      obtain ⟨more, hmore⟩ := hpre
      rw [← hmore, List.take_left]
      exact List.mem_of_mem_take htake
    . rw [fetchLoop_of_le (Nat.not_lt.mp hlt) h]

end Loop

-- `hs` was fetched, as far as it was not there before.
structure Landed (l dev : Store) (hs : List Hash) (s : Store) : Prop where
  held : ∀ x, storeHave s x = true ↔ storeHave l x = true ∨ x ∈ hs
  kept : ∀ x, storeHave l x = true → objFile s x = objFile l x
  got : ∀ x ∈ hs, storeHave l x = false → storeGet s x = storeGet dev x

theorem Landed.storeChildren {hs : List Hash} {s : Store} (h : Landed l dev hs s) {x : Hash}
    (hx : x ∈ hs) : storeChildren s x = fetchChildren l dev x := by
  unfold fetchChildren
  cases hl : storeHave l x with
  | true => exact storeChildren_congr (h.kept x hl)
  | false =>
    unfold Harp.storeChildren
    rw [h.got x hx hl]
    rfl

section Round

variable {cursor : Nat} {pending : List Hash} {s s' : Store}

theorem Landed.lacking_eq (h : Landed l dev (pending.take cursor) s) (hnodup : pending.Nodup)
    : lacking s (pending.drop cursor) = lacking l (pending.drop cursor) := by
  unfold lacking
  apply List.filter_congr
  intro x hx
  have hnot : x ∉ pending.take cursor := fun htake => not_mem_drop_of_mem_take hnodup htake hx
  have hheld := h.held x
  simp only [hnot, or_false] at hheld
  rw [Bool.eq_iff_iff.mpr hheld]

theorem Landed.round (h : Landed l dev (pending.take cursor) s) (hnodup : pending.Nodup)
    (hsafe : LevelSafe l dev put (pending.drop cursor))
    (hfetched : Fetched dev put ((lacking s (pending.drop cursor)).take fetchBatch) s s')
    : Landed l dev pending s' := by
  rw [h.lacking_eq hnodup, List.take_of_length_le hsafe.batch] at hfetched
  have hpending : ∀ x, x ∈ pending ↔ x ∈ pending.take cursor ∨ x ∈ pending.drop cursor := by
    intro x
    rw [← List.mem_append, List.take_append_drop]
  -- an object is wanted if and only if the local store lacks it and its turn has come
  have hold : ∀ x, x ∉ lacking l (pending.drop cursor) → objFile s' x = objFile s x :=
    fun x hx => hfetched.kept x (.inr hx)
  have hlacked : ∀ x ∈ lacking l (pending.drop cursor), storeHave s x = false := by
    intro x hx
    rw [← h.lacking_eq hnodup] at hx
    exact (mem_lacking.mp hx).2
  refine ⟨?_, ?_, ?_⟩
  . intro x
    rw [hpending, ← or_assoc, ← h.held]
    by_cases hx : x ∈ lacking l (pending.drop cursor)
    . have hmem := (mem_lacking.mp hx).1
      simp [hfetched.held x hx, hmem]
    . rw [storeHave_congr (hold x hx)]
      constructor
      . exact .inl
      . rintro (hhave | hmem)
        . exact hhave
        . rw [mem_lacking, not_and, Bool.not_eq_false] at hx
          exact (h.held x).mpr (.inl (hx hmem))
  . intro x hl
    rw [hold x, h.kept x hl]
    intro hx
    rw [(mem_lacking.mp hx).2] at hl
    cases hl
  . intro x hmem hl
    by_cases hx : x ∈ lacking l (pending.drop cursor)
    . obtain ⟨enc, hdev, hget⟩ := hfetched.got x hx (hlacked x hx)
      rw [hget, hdev, WriteIo.onDisk_eq (hsafe.whole x hx enc hdev)]
    . have htake : x ∈ pending.take cursor := by
        rcases (hpending x).mp hmem with htake | hdrop
        . exact htake
        . exact absurd (mem_lacking.mpr ⟨hdrop, hl⟩) hx
      unfold storeGet
      rw [hold x hx]
      exact h.got x htake hl

-- An object of an overfull level that is not in its batch.
theorem exists_lacking {s : Store} {seg : List Hash} (hnodup : seg.Nodup)
    (h : ¬ (lacking s seg).length ≤ fetchBatch)
    : ∃ x ∈ lacking s seg, x ∉ (lacking s seg).take fetchBatch := by
  have hlt : fetchBatch < (lacking s seg).length := Nat.not_le.mp h
  refine ⟨(lacking s seg)[fetchBatch], List.getElem_mem hlt, ?_⟩
  have hnodup' : (lacking s seg).Nodup := by
    unfold lacking
    exact hnodup.filter _
  intro htake
  apply not_mem_drop_of_mem_take hnodup' htake
  rw [List.drop_eq_getElem_cons hlt]
  exact List.mem_cons_self

-- A level that is not safe has an object that does not arrive as it is on the device.
theorem Landed.spoiled (h : Landed l dev (pending.take cursor) s) (hnodup : pending.Nodup)
    (hsafe : ¬ LevelSafe l dev put (pending.drop cursor))
    (hfetched : Fetched dev put ((lacking s (pending.drop cursor)).take fetchBatch) s s')
    : ∃ x ∈ lacking l (pending.drop cursor), ¬ Got l dev s' x := by
  rw [h.lacking_eq hnodup] at hfetched
  have hlacked : ∀ x ∈ lacking l (pending.drop cursor), storeHave s x = false := by
    intro x hx
    rw [← h.lacking_eq hnodup] at hx
    exact (mem_lacking.mp hx).2
  by_cases hbatch : (lacking l (pending.drop cursor)).length ≤ fetchBatch
  . have hwhole : ∃ x ∈ lacking l (pending.drop cursor), ∃ enc, storeGet dev x = some enc
        ∧ ¬ (put x).keeps enc = true := by
      by_contra hnone
      refine hsafe ⟨hbatch, fun x hx enc hdev => ?_⟩
      by_contra hlost
      exact hnone ⟨x, hx, enc, hdev, hlost⟩
    obtain ⟨x, hx, enc, hdev, hlost⟩ := hwhole
    rw [List.take_of_length_le hbatch] at hfetched
    refine ⟨x, hx, fun hgot => hlost ?_⟩
    obtain ⟨enc', hdev', hget⟩ := hfetched.got x hx (hlacked x hx)
    have hsame := hgot.2 (mem_lacking.mp hx).2
    rw [hdev] at hdev'
    cases hdev'
    rw [hget, hdev, Option.some.injEq] at hsame
    unfold WriteIo.keeps
    exact decide_eq_true hsame
  . obtain ⟨x, hx, hwant⟩ := exists_lacking (hnodup.sublist (List.drop_sublist ..)) hbatch
    refine ⟨x, hx, fun hgot => ?_⟩
    have hhave := hgot.1
    rw [storeHave_congr (hfetched.kept x (.inr hwant)), hlacked x hx] at hhave
    cases hhave

end Round

theorem got_congr {s s' : Store} {x : Hash} (h : objFile s' x = objFile s x)
    : Got l dev s' x ↔ Got l dev s x := by
  unfold Got storeHave storeGet
  rw [h]

theorem fetchLoop_levels (hgenuine : ∀ x, Reach dev root x → Genuine dev x)
    {rounds : List FetchRound} {cursor got n fuel : Nat} {pending : List Hash} {s s' : Store}
    (h : fetchLoop dev put rounds cursor pending got s = (some n, s'))
    (hwalked : WalkedOver dev root pending s) (harrived : Landed l dev (pending.take cursor) s)
    (hfuel : clientMaxClosure ≤ cursor + fuel)
    : ((∀ level ∈ from_ clientMaxClosure (fetchChildren l dev) fuel cursor pending,
            LevelSafe l dev put level)
          ∧ Landed l dev (pending.take cursor
            ++ (from_ clientMaxClosure (fetchChildren l dev) fuel cursor pending).flatten) s')
        ∨ (∃ level ∈ from_ clientMaxClosure (fetchChildren l dev) fuel cursor pending,
            ¬ LevelSafe l dev put level)
          ∧ ∃ x, Reach dev root x ∧ ¬ Got l dev s' x := by
  induction rounds generalizing cursor pending got s fuel with
  | nil =>
    have hle : pending.length ≤ cursor := by
      by_contra hlt
      unfold fetchLoop at h
      rw [if_pos (Nat.not_le.mp hlt)] at h
      cases h
    rw [fetchLoop_of_le hle h, from_of_le hle]
    exact .inl ⟨by simp, by simpa using harrived⟩
  | cons round rounds ih =>
    by_cases hlt : cursor < pending.length
    . cases fuel with
      | zero =>
        have := hwalked.bound
        omega
      | succ fuel =>
        obtain ⟨s₁, got₁, hfetched, hwalked₁, hpre, hrest⟩ := fetchLoop_cons hgenuine hlt hwalked h
        have htake : (expandPending s₁ (pending.drop cursor) pending).take pending.length
            = pending := by
          obtain ⟨more, hmore⟩ := hpre
          rw [← hmore, List.take_left]
        rw [from_of_lt hlt]
        by_cases hsafe : LevelSafe l dev put (pending.drop cursor)
        . have harrived₁ := harrived.round hwalked.nodup hsafe hfetched
          have hexpand : expandPending s₁ (pending.drop cursor) pending
              = expand clientMaxClosure (fetchChildren l dev) (pending.drop cursor) pending := by
            rw [expandPending_eq]
            apply expand_congr
            intro x hx
            exact harrived₁.storeChildren (List.mem_of_mem_drop hx)
          have hfuel₁ : clientMaxClosure ≤ pending.length + fuel := by omega
          have hrec := ih hrest hwalked₁ (by rw [htake]; exact harrived₁) hfuel₁
          rw [htake, hexpand] at hrec
          rw [List.flatten_cons, ← List.append_assoc, List.take_append_drop]
          rcases hrec with ⟨hall, hrec⟩ | ⟨⟨level, hlevel, hbad⟩, hrec⟩
          . exact .inl ⟨List.forall_mem_cons.mpr ⟨hsafe, hall⟩, hrec⟩
          . exact .inr ⟨⟨level, List.mem_cons_of_mem _ hlevel, hbad⟩, hrec⟩
        . refine .inr ⟨⟨_, List.mem_cons_self, hsafe⟩, ?_⟩
          obtain ⟨x, hx, hnot⟩ := harrived.spoiled hwalked.nodup hsafe hfetched
          have hmem := List.mem_of_mem_drop (mem_lacking.mp hx).1
          refine ⟨x, hwalked.reach x hmem, ?_⟩
          have hpassed := fetchLoop_passed hgenuine hrest hwalked₁ (x := x)
            (.inr (by rw [htake]; exact hmem))
          rw [got_congr hpassed]
          exact hnot
    . have hle := Nat.not_lt.mp hlt
      rw [fetchLoop_of_le hle h, from_of_le hle]
      exact .inl ⟨by simp, by simpa using harrived⟩

theorem walked_start (hfront : ∀ x, Reach dev root x → FrontOf l dev x)
    : WalkedOver dev root (listCollect root []).2 l := by
  have hgrown : Grown clientMaxClosure (Reach dev root) [] (collect clientMaxClosure [] root) :=
    collect_grown _ _ Relation.ReflTransGen.refl
  refine ⟨hgrown.nodup (by simp), hgrown.bound (by simp), ?_, hfront⟩
  intro x hx
  rcases hgrown.new x hx with hx | hx
  . cases hx
  . exact hx

theorem fetchClosure_complete_iff {root : Hash} {io : FetchIo} {got : Nat}
    (hret : (fetchClosure l dev root io).1 = some got)
    (hgenuine : ∀ x, Reach dev root x → Genuine dev x)
    (hfront : ∀ x, Reach dev root x → FrontOf l dev x)
    : FetchComplete l dev root io ↔ FetchSafe l dev root io.put := by
  rcases hfetch : fetchClosure l dev root io with ⟨ret, s'⟩
  rw [hfetch] at hret
  dsimp only at hret
  subst hret
  have hfuel : clientMaxClosure ≤ 0 + clientMaxClosure := by omega
  have hlevels := fetchLoop_levels hgenuine hfetch (walked_start hfront)
    (l := l) ⟨by simp, fun _ _ => rfl, by simp⟩ hfuel
  have hdef : from_ clientMaxClosure (fetchChildren l dev) clientMaxClosure 0
      (listCollect root []).2 = fetchLevels l dev root := rfl
  rw [List.take_zero, List.nil_append, hdef] at hlevels
  unfold FetchComplete
  rw [hfetch]
  dsimp only
  rcases hlevels with ⟨hsafe, harrived⟩ | ⟨⟨level, hlevel, hbad⟩, x, hx, hnot⟩
  . constructor
    . intro hall
      exact ⟨hsafe, fun x hx => (harrived.held x).mp (hall x hx).1⟩
    . intro h x hx
      refine ⟨(harrived.held x).mpr (h.covered x hx), fun hnot => ?_⟩
      rcases h.covered x hx with hhave | hmem
      . rw [hnot] at hhave
        cases hhave
      . exact harrived.got x hmem hnot
  . constructor
    . intro hall
      exact absurd (hall x hx) hnot
    . intro h
      exact absurd (h.safe level hlevel) hbad

end Levels

section Unreadable

-- The list is there, but reading its file fails.
def unreadStore : Store :=
  ⟨[7], [(hashHex pairHash, ⟨true, none, false⟩)], .dir true []⟩

def oneRound : FetchIo :=
  ⟨[⟨true, []⟩], fun _ => .ok⟩

theorem storeGet_unreadStore (x : Hash) : storeGet unreadStore x = none := by
  unfold storeGet objFile unreadStore lookupObj
  split <;> rfl

theorem fetchClosure_unread
    : (fetchClosure unreadStore pairStore pairHash oneRound).1 = some 0
        ∧ storeHave (fetchClosure unreadStore pairStore pairHash oneRound).2 leafHash = false := by
  unfold unreadStore
  rw [pairStore_eq, pairHash_eq, leafHash_eq]
  decide +kernel

theorem not_fetchComplete_unread
    : ¬ ∀ (l dev : Store) (root : Hash) (io : FetchIo) (got : Nat),
        (∀ x, Reach dev root x → ∃ enc, storeGet dev x = some enc ∧ hashCompute enc = x) →
        (∀ x, Reach dev root x → FrontOf l dev x) →
        (fetchClosure l dev root io).1 = some got → FetchComplete l dev root io := by
  intro h
  have hgot := h unreadStore pairStore pairHash oneRound 0
    (fun x hx => (sound_pairStore hx).imp fun _ henc => ⟨henc.1, henc.2.1⟩)
    (fun x _ enc hget => by rw [storeGet_unreadStore] at hget; cases hget)
    fetchClosure_unread.1 leafHash ((reach_pairStore leafHash).mpr (.inr rfl))
  have hhave := hgot.1
  rw [fetchClosure_unread.2] at hhave
  cases hhave

end Unreadable

section Empty

def twoRounds : FetchIo :=
  ⟨[⟨true, [false, true]⟩, ⟨true, [true]⟩], fun _ => .ok⟩

theorem fetchClosure_empty : (fetchClosure emptyStore pairStore pairHash twoRounds).1 = some 2 := by
  rw [pairStore_eq, pairHash_eq]
  decide +kernel

theorem fetchLevels_empty : fetchLevels emptyStore pairStore pairHash = [[pairHash], [leafHash]] := by
  rw [pairStore_eq, pairHash_eq, leafHash_eq]
  decide +kernel

theorem fetchComplete_empty : FetchComplete emptyStore pairStore pairHash twoRounds := by
  have hgenuine : ∀ x, Reach pairStore pairHash x → Genuine pairStore x := by
    intro x hx enc henc
    obtain ⟨enc', henc', hhash, _⟩ := sound_pairStore hx
    rw [henc] at henc'
    cases henc'
    exact hhash
  rw [fetchClosure_complete_iff fetchClosure_empty hgenuine (fun x _ enc hget => by cases hget)]
  constructor
  . intro level hlevel
    rw [fetchLevels_empty] at hlevel
    refine ⟨?_, fun x _ enc _ => decide_eq_true rfl⟩
    have hone : level.length = 1 := by
      simp only [List.mem_cons, List.not_mem_nil, or_false] at hlevel
      rcases hlevel with rfl | rfl <;> rfl
    have hle := List.length_filter_le (fun x => !storeHave emptyStore x) level
    unfold lacking fetchBatch
    omega
  . intro x hx
    rw [fetchLevels_empty]
    rw [reach_pairStore] at hx
    exact .inr (by simpa using hx)

end Empty

end Harp
