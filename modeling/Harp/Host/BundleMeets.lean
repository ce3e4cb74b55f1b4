import Harp.Core.CborFormed
import Harp.Host.BundleSave

/-!
This module contains what the readers of a bundle meet in bytes that the encoders wrote: one rule for
each way a reader is put together, with whatever comes behind.
-/

namespace Harp

open Trails Trail

-- Map counts are of no consequence to the members.
def BundleEvent.told : BundleEvent → Bool
  | .mapCount _ => false
  | _ => true

def BundleEvent.Silent (e : BundleEvent) : Prop :=
  e.told = false

section Erase

theorem erase_bind_dec (x : BundleDec α) (f : α → BundleDec β)
    : (x >>= f).erase = Dec.bind x.erase (fun a => (f a).erase) := by
  funext d
  rw [erase_bind]
  unfold Dec.bind
  rcases x.erase d with ⟨_ | a, d'⟩ <;> rfl

theorem erase_loop (n : Nat) (body : β → BundleDec β) (b : β)
    : (loop n body b).erase = Dec.loop n (fun b => (body b).erase) b := by
  induction n generalizing b with
  | zero => rfl
  | succ n ih =>
    have hbind : (loop (n + 1) body b).erase = (body b >>= fun b => loop n body b).erase := rfl
    rw [hbind, erase_bind_dec, Dec.loop_succ]
    congr 1
    funext b
    exact ih b

theorem erase_bundleSkipItem (levels : Nat) : (bundleSkipItem levels).erase = skipItem levels := by
  induction levels with
  | zero => rfl
  | succ levels ih =>
    unfold bundleSkipItem skipItem
    rw [erase_bind_dec, Dec.bind_eq]
    congr 1
    funext h
    split
    . rfl
    . split
      . rfl
      . split
        . rw [erase_loop, ih]
        . split
          . rw [erase_bind_dec, erase_loop, ih]
            rfl
          . split
            . exact ih
            . rfl

theorem erase_bundleSkip : bundleSkip.erase = cdecSkip :=
  erase_bundleSkipItem 33

theorem quiet_bundleSkipItem (levels : Nat)
    : Only BundleEvent.Silent (bundleSkipItem levels) := by
  induction levels with
  | zero => exact Only.lift _
  | succ levels ih =>
    unfold bundleSkipItem
    refine Only.bind (Only.lift _) ?_
    intro h
    split
    . exact Only.pure ()
    . split
      . exact Only.lift _
      . split
        . exact Only.loop (fun _ => ih) _ _
        . split
          . refine Only.bind (Only.emit rfl) ?_
            intro _
            exact Only.loop (fun _ => ih) _ _
          . split
            . exact ih
            . exact Only.pure ()

theorem quiet_bundleSkip : Only BundleEvent.Silent bundleSkip :=
  quiet_bundleSkipItem 33

theorem quiet_bundleMap : Only BundleEvent.Silent bundleMap := by
  intro d e he
  have hmem : e ∈ mapHeads d := he
  unfold mapHeads at hmem
  split at hmem
  . split at hmem
    . rw [List.mem_singleton.mp hmem]
      rfl
    . cases hmem
  . cases hmem

end Erase

-- `x` reads `bs`, returns `a` and comes past `es`.
def Meets (x : BundleDec α) (bs : Bytes) (a : α) (es : List BundleEvent) : Prop :=
  ∀ rest, Yields BundleEvent.told x ⟨bs ++ rest, false⟩ a ⟨rest, false⟩ es

section Rules

variable {bs bs' : Bytes} {a : α} {b : β} {es es' : List BundleEvent}

theorem Meets.pure (a : α) : Meets (Pure.pure a) [] a [] :=
  fun _ => Yields.pure a _

theorem Meets.lift {x : Dec α} (h : ∀ rest, x ⟨bs ++ rest, false⟩ = (some a, ⟨rest, false⟩))
    : Meets (lift x) bs a [] :=
  fun rest => Yields.lift (h rest)

theorem Meets.emit {e : BundleEvent} (h : e.told = true) : Meets (emit e) [] () [e] :=
  fun _ => Yields.emit h _

theorem Meets.bind {x : BundleDec α} {f : α → BundleDec β} (hx : Meets x bs a es)
    (hf : Meets (f a) bs' b es') : Meets (x >>= f) (bs ++ bs') b (es ++ es') := by
  intro rest
  have hfirst := hx (bs' ++ rest)
  rw [← List.append_assoc] at hfirst
  exact hfirst.bind (hf rest)

-- A reader without events, by the decoder that it is.
theorem Meets.of_erase {x : BundleDec α} {y : Dec α} (herase : x.erase = y)
    (hquiet : Only BundleEvent.Silent x)
    (h : ∀ rest, y ⟨bs ++ rest, false⟩ = (some a, ⟨rest, false⟩)) : Meets x bs a [] := by
  intro rest
  constructor
  . rw [herase]
    exact h rest
  . rw [List.filter_eq_nil_iff]
    intro e he
    rw [hquiet _ e he]
    decide

theorem Meets.skip (h : Item (fun _ => True) 33 bs) : Meets bundleSkip bs () [] :=
  Meets.of_erase erase_bundleSkip quiet_bundleSkip (cdecSkip_of_item h)

theorem Meets.span (h : Item (fun _ => True) 33 bs) : Meets bundleSpan bs bs [] := by
  intro rest
  have hskip := Meets.skip h rest
  have hresult := hskip.result
  have htrace := hskip.trace
  unfold erase at hresult
  unfold Trail.trace at htrace
  rcases hrun : bundleSkip ⟨bs ++ rest, false⟩ with ⟨_ | u, d', es⟩
  . rw [hrun] at hresult
    cases hresult
  . rw [hrun] at hresult htrace
    cases hresult
    have hspan : bundleSpan ⟨bs ++ rest, false⟩ = (some bs, ⟨rest, false⟩, es) := by
      unfold bundleSpan
      rw [hrun]
      simp
    constructor
    . unfold erase
      rw [hspan]
    . unfold Trail.trace
      rw [hspan]
      exact htrace

theorem Meets.key {field : Nat → BundleDec α} {key : Nat} (hkey : key < 2 ^ 64)
    (h : Meets (field key) bs a es)
    : Meets (do let key ← Trail.lift cdecUint; field key) (cborUint key ++ bs) a es :=
  Meets.bind (Meets.lift fun rest => cdecUint_cborUint rest hkey) h

theorem Meets.map {f : Nat → BundleDec α} {n : Nat} (hlen : n * 2 ≤ bs.length) (hn : n < 2 ^ 63)
    (h : Meets (f n) bs a es) : Meets (bundleMap >>= f) (cborMap n ++ bs) a es := by
  intro rest
  have hread := cdecMap_cborMap (bs ++ rest) hn (by
    rw [List.length_append]
    omega)
  rw [← List.append_assoc] at hread
  have hmap : Yields BundleEvent.told bundleMap ⟨cborMap n ++ bs ++ rest, false⟩ n
      ⟨bs ++ rest, false⟩ [] := by
    constructor
    . unfold erase bundleMap
      rw [hread]
    . rw [List.filter_eq_nil_iff]
      intro e he
      rw [quiet_bundleMap _ e he]
      decide
  exact hmap.bind (h rest)

theorem Meets.array {f : Nat → BundleDec α} {n : Nat} (hlen : n ≤ bs.length) (hn : n < 2 ^ 64)
    (h : Meets (f n) bs a es) : Meets (Trail.lift cdecArray >>= f) (cborArray n ++ bs) a es := by
  intro rest
  have hread := cdecArray_cborArray (bs ++ rest) hn (by
    rw [List.length_append]
    omega)
  rw [← List.append_assoc] at hread
  exact (Yields.lift hread).bind (h rest)

theorem Meets.loop_succ {n : Nat} {body : β → BundleDec β} {b₁ b₂ : β}
    (hbody : Meets (body b) bs b₁ es) (hloop : Meets (loop n body b₁) bs' b₂ es')
    : Meets (loop (n + 1) body b) (bs ++ bs') b₂ (es ++ es') :=
  Meets.bind hbody hloop

theorem Meets.loop_zero (body : β → BundleDec β) (b : β) : Meets (loop 0 body b) [] b [] :=
  Meets.pure b

theorem Meets.loop_quiet {n : Nat} {body : β → BundleDec β} {b₁ b₂ : β}
    (hbody : Meets (body b) bs b₁ []) (hloop : Meets (loop n body b₁) bs' b₂ [])
    : Meets (loop (n + 1) body b) (bs ++ bs') b₂ [] :=
  Meets.loop_succ hbody hloop

-- One turn of the loop over the fields of a ref.
def refTurn (it : RefIter) : BundleDec RefIter := do
  let key ← Trail.lift cdecUint
  bundleRefField key it

theorem Meets.refTurn {key : Nat} {it it' : RefIter} (hkey : key ≤ 3)
    (h : ∀ rest, refDecodeField key it ⟨bs ++ rest, false⟩ = (some it', ⟨rest, false⟩))
    : Meets (refTurn it) (cborUint key ++ bs) it' [] := by
  apply @Meets.key _ _ _ _ (fun key => bundleRefField key it) _ (by omega)
  unfold bundleRefField
  rw [if_pos hkey]
  exact Meets.lift h

theorem Meets.ref {r : Ref} {h : Hash} (hname : refNameOk r.name = true) (hhash : r.hash = some h)
    (halg : h.b.head? = some 0x01) : Meets bundleRefDecode (refEncode r) r [] := by
  have hturns : Meets (loop 4 Harp.refTurn ⟨Ref.unborn [], false⟩)
      ((cborUint 0 ++ cborText r.name) ++ ((cborUint 1 ++ cborBytes h.b)
        ++ ((cborUint 2 ++ cborUint r.generation.toNat)
          ++ ((cborUint 3 ++ cborBool r.dirty) ++ [])))) ⟨r, true⟩ [] := by
    have hdone : (⟨r, true⟩ : RefIter) = ⟨⟨r.name, some h, r.generation, r.dirty⟩, true⟩ := by
      rw [← hhash]
    rw [hdone]
    apply Meets.loop_quiet
    . exact Meets.refTurn (by omega) fun rest => refDecodeField_name _ rest hname
    . apply Meets.loop_quiet
      . exact Meets.refTurn (by omega) fun rest => refDecodeField_hash _ rest halg
      . apply Meets.loop_quiet
        . exact Meets.refTurn (by omega) fun rest => refDecodeField_generation _ rest r.generation
        . apply Meets.loop_quiet
          . exact Meets.refTurn (by omega) fun rest => refDecodeField_dirty _ rest r.dirty
          . exact Meets.loop_zero _ _
  have hbytes : refEncode r = cborMap 4 ++ (((cborUint 0 ++ cborText r.name)
      ++ ((cborUint 1 ++ cborBytes h.b) ++ ((cborUint 2 ++ cborUint r.generation.toNat)
        ++ ((cborUint 3 ++ cborBool r.dirty) ++ [])))) ++ []) := by
    unfold refEncode
    rw [hhash]
    simp only [List.append_assoc, List.append_nil]
  rw [hbytes]
  apply Meets.map _ (by omega)
  . exact hturns.bind (Meets.pure r)
  . have h0 := length_putHead_pos 0 0
    have h1 := length_putHead_pos 0 1
    have h2 := length_putHead_pos 0 2
    have h3 := length_putHead_pos 0 3
    have hname1 := length_putHead_pos 3 r.name.length
    have hhash1 := length_putHead_pos 2 h.b.length
    have hgen1 := length_putHead_pos 0 r.generation.toNat
    simp only [cborUint, cborText, cborBytes, cborBool, List.length_append, List.length_singleton]
    omega

theorem Meets.loopWhile_succ {n : Nat} {body : BundleDec Unit} (hbody : Meets body bs () es)
    (hloop : Meets (loopWhile (fun d => !d.err) n body) bs' () es')
    : Meets (loopWhile (fun d => !d.err) (n + 1) body) (bs ++ bs') () (es ++ es') := by
  intro rest
  have hfirst := hbody (bs' ++ rest)
  rw [← List.append_assoc] at hfirst
  exact Yields.loopWhile_succ rfl hfirst (hloop rest)

end Rules

-- A stretch of the bytes with what is met in it.
structure Piece where
  bs : Bytes
  events : List BundleEvent

section Pieces

theorem Meets.pieces {body : BundleDec Unit} {ps : List Piece}
    (h : ∀ p ∈ ps, Meets body p.bs () p.events)
    : Meets (loop ps.length (fun _ => body) ()) (ps.flatMap Piece.bs) () (ps.flatMap Piece.events) := by
  induction ps with
  | nil => exact Meets.pure ()
  | cons p ps ih =>
    rw [List.flatMap_cons, List.flatMap_cons]
    exact Meets.loop_succ (h p List.mem_cons_self) (ih fun q hq => h q (List.mem_cons_of_mem p hq))

theorem Meets.piecesWhile {body : BundleDec Unit} {ps : List Piece}
    (h : ∀ p ∈ ps, Meets body p.bs () p.events)
    : Meets (loopWhile (fun d => !d.err) ps.length body) (ps.flatMap Piece.bs) ()
        (ps.flatMap Piece.events) := by
  induction ps with
  | nil => exact Meets.pure ()
  | cons p ps ih =>
    rw [List.flatMap_cons, List.flatMap_cons]
    exact Meets.loopWhile_succ (h p List.mem_cons_self) (ih fun q hq => h q (List.mem_cons_of_mem p hq))

-- An entry of a map whose value is read by its key.
structure Entry where
  key : Nat
  val : Bytes
  events : List BundleEvent

def Entry.kv (e : Entry) : Nat × Bytes :=
  (e.key, e.val)

def Entry.piece (e : Entry) : Piece :=
  ⟨cborUint e.key ++ e.val, e.events⟩

variable {field : Nat → BundleDec Unit} {es : List Entry}

theorem encFields_kv (es : List Entry)
    : encFields (es.map Entry.kv) = cborMap es.length ++ (es.map Entry.piece).flatMap Piece.bs := by
  unfold encFields
  rw [List.length_map, List.flatMap_map, List.flatMap_map]
  rfl

theorem length_pieces (es : List Entry)
    (h : ∀ e ∈ es, 0 < e.val.length)
    : es.length * 2 ≤ ((es.map Entry.piece).flatMap Piece.bs).length := by
  have hpos : ∀ p ∈ es.map Entry.piece, 2 ≤ p.bs.length := by
    intro p hp
    rcases List.mem_map.mp hp with ⟨e, he, rfl⟩
    have hkey := length_putHead_pos 0 e.key
    have hval := h e he
    simp only [Entry.piece, cborUint, List.length_append]
    omega
  have hsum := mul_length_le_flatMap (es.map Entry.piece) hpos
  rw [List.length_map] at hsum
  omega

theorem Meets.entry (hkeys : ∀ e ∈ es, e.key < 2 ^ 64)
    (h : ∀ e ∈ es, Meets (field e.key) e.val () e.events) {p : Piece} (hp : p ∈ es.map Entry.piece)
    : Meets (do let key ← Trail.lift cdecUint; field key) p.bs () p.events := by
  rcases List.mem_map.mp hp with ⟨e, he, rfl⟩
  exact Meets.key (hkeys e he) (h e he)

theorem Meets.fields (hlen : es.length < 2 ^ 63) (hkeys : ∀ e ∈ es, e.key < 2 ^ 64)
    (hvals : ∀ e ∈ es, 0 < e.val.length) (h : ∀ e ∈ es, Meets (field e.key) e.val () e.events)
    : Meets (do
          let n ← bundleMap
          loop n (fun _ => do let key ← Trail.lift cdecUint; field key) ())
        (encFields (es.map Entry.kv)) () (es.flatMap Entry.events) := by
  rw [encFields_kv]
  apply Meets.map (length_pieces es hvals) hlen
  have hloop := Meets.pieces (fun p hp => Meets.entry hkeys h hp)
  rw [List.length_map, List.flatMap_map (f := Entry.piece) (g := Piece.events)] at hloop
  exact hloop

theorem Meets.fieldsWhile (hlen : es.length < 2 ^ 63) (hkeys : ∀ e ∈ es, e.key < 2 ^ 64)
    (hvals : ∀ e ∈ es, 0 < e.val.length) (h : ∀ e ∈ es, Meets (field e.key) e.val () e.events)
    : Meets (do
          let n ← bundleMap
          loopWhile (fun d => !d.err) n (do let key ← Trail.lift cdecUint; field key))
        (encFields (es.map Entry.kv)) () (es.flatMap Entry.events) := by
  rw [encFields_kv]
  apply Meets.map (length_pieces es hvals) hlen
  have hloop := Meets.piecesWhile (fun p hp => Meets.entry hkeys h hp)
  rw [List.length_map, List.flatMap_map (f := Entry.piece) (g := Piece.events)] at hloop
  exact hloop

end Pieces

end Harp
