import Harp.Host.BundleMeets

/-!
This module contains what the two readers meet in a bundle that `encode_bundle` wrote.
-/

namespace Harp

open Trails Trail

theorem cborCString_eq (s : CString) : cborCString s = cborText s.b := by
  unfold cborCString cstr
  congr 1
  rw [List.takeWhile_eq_self_iff]
  intro c hc
  have hne : c ≠ 0 := by
    rintro rfl
    exact s.no_nul hc
  simpa using hne

section Entries

variable (id : SavedIdentity) (r : Ref) (objs : List Bytes)

def engineEntries : List Entry :=
  [ ⟨0, cborText id.engineId.b, []⟩,
    ⟨1, cborText id.engineVer.b, [.engineVer id.engineVer.b]⟩,
    ⟨2, cborBytes id.paramMapHash.b, [.paramMapHash id.paramMapHash.b]⟩ ]

def identityEntries : List Entry :=
  [ ⟨0, encFields [(0, cborUint id.vendorId.toNat), (1, cborText id.vendorName.b)], []⟩,
    ⟨1, encFields [(0, cborUint id.productId.toNat), (1, cborText id.productName.b)], []⟩,
    ⟨2, cborText id.serial.b, [.serial id.serial.b]⟩,
    ⟨3, encFields ((engineEntries id).map Entry.kv), (engineEntries id).flatMap Entry.events⟩ ]

def usbBytes : Bytes :=
  encFields [(0, cborUint id.usbVid.toNat), (1, cborUint id.usbPid.toNat),
    (2, cborText id.usbSerial.b)]

def usbEvent : BundleEvent :=
  .usb id.usbVid.toNat id.usbPid.toNat (some id.usbSerial.b)

def bundleEntries : List Entry :=
  [ ⟨0, cborText bundleMagic, [.magic bundleMagic]⟩,
    ⟨1, cborUint 1, []⟩,
    ⟨2, encFields ((identityEntries id).map Entry.kv), (identityEntries id).flatMap Entry.events⟩,
    ⟨3, cborArray 1 ++ refEncode r, [.ref r]⟩,
    ⟨4, cborArray objs.length ++ objs.flatten, objs.map BundleEvent.object⟩,
    ⟨5, usbBytes id, [usbEvent id]⟩ ]

-- The same entries for the reader that has no use for the identities.
def paramsEntries : List Entry :=
  (bundleEntries id r objs).map fun e => if e.key = 2 ∨ e.key = 5 then { e with events := [] } else e

def bundleBytes : Bytes :=
  encFields ((bundleEntries id r objs).map Entry.kv)

theorem paramsEntries_kv
    : (paramsEntries id r objs).map Entry.kv = (bundleEntries id r objs).map Entry.kv := by
  unfold paramsEntries
  rw [List.map_map]
  apply List.map_congr_left
  intro e _
  simp only [Function.comp_apply]
  split <;> rfl

-- The objects that are written for `clo`.
def closureBytes (store : Store) (clo : List Hash) : List Bytes :=
  clo.map fun h => (storeGet store h).getD []

theorem encodeBundle_eq (store : Store) (clo : List Hash)
    : encodeBundle id r store clo = bundleBytes id r (closureBytes store clo) := by
  have hobjs : clo.flatMap (fun h => (storeGet store h).getD []) = (closureBytes store clo).flatten :=
    List.flatMap_def
  have hlen : (closureBytes store clo).length = clo.length := List.length_map _
  unfold encodeBundle bundleBytes bundleEntries usbBytes identityEntries engineEntries
  rw [hobjs, hlen]
  simp only [cborCString_eq, encFields, Entry.kv, List.map_cons, List.map_nil, List.length_cons,
    List.length_nil, List.flatMap_cons, List.flatMap_nil, List.append_nil, List.append_assoc,
    Nat.reduceAdd]

end Entries

-- The strings fit the length that a head can have.
structure SavedIdentity.Short (id : SavedIdentity) : Prop where
  vendorName : id.vendorName.b.length < 2 ^ 64
  productName : id.productName.b.length < 2 ^ 64
  serial : id.serial.b.length < 2 ^ 64
  engineId : id.engineId.b.length < 2 ^ 64
  engineVer : id.engineVer.b.length < 2 ^ 64
  usbSerial : id.usbSerial.b.length < 2 ^ 64

theorem short_of_bundleBytes {id : SavedIdentity} {r : Ref} {objs : List Bytes}
    (h : (bundleBytes id r objs).length < 2 ^ 64) : id.Short := by
  unfold bundleBytes bundleEntries usbBytes identityEntries engineEntries at h
  simp only [encFields, Entry.kv, List.map_cons, List.map_nil, List.flatMap_cons, List.flatMap_nil,
    List.append_nil, List.length_append, cborText] at h
  constructor <;> omega

section Leaves

variable {s : Bytes} {es : List BundleEvent}

theorem Meets.textEvent {mk : Bytes → BundleEvent} (hmk : (mk s).told = true) (hs : s.length < 2 ^ 64)
    : Meets (do let s ← Trail.lift cdecText; Trail.emit (mk s)) (cborText s) () [mk s] := by
  have hboth := Meets.bind (f := fun s => Trail.emit (mk s))
    (Meets.lift fun rest => cdecText_cborText s rest hs) (Meets.emit hmk)
  rw [List.append_nil] at hboth
  exact hboth

theorem Meets.bytesEvent {mk : Bytes → BundleEvent} (hmk : (mk s).told = true)
    (hs : s.length < 2 ^ 64)
    : Meets (do let s ← Trail.lift cdecBytes; Trail.emit (mk s)) (cborBytes s) () [mk s] := by
  have hboth := Meets.bind (f := fun s => Trail.emit (mk s))
    (Meets.lift fun rest => cdecBytes_cborBytes s rest hs) (Meets.emit hmk)
  rw [List.append_nil] at hboth
  exact hboth

theorem length_encFields_pos (kvs : List (Nat × Bytes)) : 0 < (encFields kvs).length := by
  have := length_putHead_pos 5 kvs.length
  unfold encFields cborMap
  rw [List.length_append]
  omega

theorem length_cborText_pos (s : Bytes) : 0 < (cborText s).length := by
  have := length_putHead_pos 3 s.length
  unfold cborText
  rw [List.length_append]
  omega

end Leaves

section Reads

variable {id : SavedIdentity} {r : Ref} {head : Hash} {objs : List Bytes}

theorem meets_engine (h : id.Short)
    : Meets bundleEngine (encFields ((engineEntries id).map Entry.kv)) ()
        ((engineEntries id).flatMap Entry.events) := by
  unfold engineEntries
  apply Meets.fields
  . simp
  . simp
  . simp [length_cborText_pos, length_cborBytes_pos]
  . refine List.forall_mem_cons.mpr ⟨?_, List.forall_mem_cons.mpr ⟨?_, List.forall_mem_cons.mpr
      ⟨?_, by simp⟩⟩⟩
    . exact Meets.skip (item_cborText h.engineId 32)
    . exact Meets.textEvent rfl h.engineVer
    . exact Meets.bytesEvent rfl (hash_lt _)

-- A number and a name, as the vendor and the product have them.
theorem item_numberText {ok : Head → Prop} (hok : Usual ok) (v : UInt32) {s : Bytes}
    (hs : s.length < 2 ^ 64) (levels : Nat)
    : Item ok (levels + 2) (encFields [(0, cborUint v.toNat), (1, cborText s)]) := by
  have hv := v.toNat_lt
  apply item_encFields hok
  . simp
  . simp
  . refine List.forall_mem_cons.mpr ⟨?_, List.forall_mem_cons.mpr ⟨?_, by simp⟩⟩
    . exact item_uint hok (by omega) levels
    . exact item_text hok hs levels

theorem meets_identity (h : id.Short)
    : Meets bundleIdentity (encFields ((identityEntries id).map Entry.kv)) ()
        ((identityEntries id).flatMap Entry.events) := by
  unfold identityEntries
  apply Meets.fields
  . simp
  . simp
  . simp [length_cborText_pos, length_encFields_pos]
  . refine List.forall_mem_cons.mpr ⟨?_, List.forall_mem_cons.mpr ⟨?_, List.forall_mem_cons.mpr
      ⟨?_, List.forall_mem_cons.mpr ⟨?_, by simp⟩⟩⟩⟩
    . exact Meets.skip (item_numberText usual_true id.vendorId h.vendorName 31)
    . exact Meets.skip (item_numberText usual_true id.productId h.productName 31)
    . exact Meets.textEvent rfl h.serial
    . exact meets_engine h

theorem meets_refs (hname : refNameOk r.name = true) (hhash : r.hash = some head)
    (halg : head.b.head? = some 0x01) : Meets bundleRefs (cborArray 1 ++ refEncode r) () [.ref r] := by
  have hturn : Meets (do let r ← bundleRefDecode; Trail.emit (.ref r)) (refEncode r) () [.ref r] := by
    have hboth := Meets.bind (f := fun r => Trail.emit (.ref r)) (Meets.ref hname hhash halg)
      (Meets.emit rfl)
    rw [List.append_nil] at hboth
    exact hboth
  have hpos : 1 ≤ (refEncode r).length := by
    have := length_putHead_pos 5 4
    unfold refEncode
    simp only [List.length_append, cborMap]
    omega
  apply Meets.array hpos (by omega)
  have hloop := @Meets.pieces _ [⟨refEncode r, [.ref r]⟩] (List.forall_mem_singleton.mpr hturn)
  rw [List.flatMap_singleton, List.flatMap_singleton] at hloop
  exact hloop

theorem cdecPeekNull_cborArray (n : Nat) (rest : Bytes)
    : cdecPeekNull ⟨cborArray n ++ rest, false⟩ = false := by
  have hbyte : ∀ m < 24, ¬128 + UInt8.ofNat m = 246 := by decide
  unfold cdecPeekNull cborArray putHead
  split
  next hsmall => simpa using hbyte n hsmall
  . split
    . simp
    . split
      . simp
      . split <;> simp

theorem meets_objects (hlen : objs.length < 2 ^ 64) (hobjs : ∀ x ∈ objs, Item (fun _ => True) 33 x)
    : Meets bundleObjects (cborArray objs.length ++ objs.flatten) () (objs.map BundleEvent.object) := by
  have hturn : ∀ p ∈ objs.map (fun x => Piece.mk x [.object x]),
      Meets (do let span ← bundleSpan; Trail.emit (.object span)) p.bs () p.events := by
    intro p hp
    rcases List.mem_map.mp hp with ⟨x, hx, rfl⟩
    have hboth := Meets.bind (f := fun span => Trail.emit (.object span))
      (Meets.span (hobjs x hx)) (Meets.emit rfl)
    rw [List.append_nil] at hboth
    exact hboth
  have hloop := Meets.pieces hturn
  have hflat : objs.flatMap (fun x => x) = objs.flatten := by
    rw [List.flatMap_def, List.map_id']
  have hevents : objs.flatMap (fun x => [BundleEvent.object x]) = objs.map BundleEvent.object :=
    List.flatMap_pure_eq_map _ _
  rw [List.length_map, List.flatMap_map, List.flatMap_map] at hloop
  dsimp only at hloop
  rw [hflat, hevents] at hloop
  have hcount : objs.length ≤ objs.flatten.length :=
    length_le_flatten fun x hx => (hobjs x hx).length_pos
  have hall := Meets.array (f := fun alen => Trail.loop alen
    (fun _ => do let span ← bundleSpan; Trail.emit (.object span)) ()) hcount hlen hloop
  intro rest
  have hread := hall rest
  have hpeek := cdecPeekNull_cborArray objs.length (objs.flatten ++ rest)
  rw [← List.append_assoc] at hpeek
  have heq : bundleObjects ⟨cborArray objs.length ++ objs.flatten ++ rest, false⟩
      = (Trail.lift cdecArray >>= fun alen => Trail.loop alen
        (fun _ => do let span ← bundleSpan; Trail.emit (.object span)) () : BundleDec Unit)
        ⟨cborArray objs.length ++ objs.flatten ++ rest, false⟩ := by
    unfold bundleObjects
    rw [hpeek]
    rfl
  constructor
  . have hresult := hread.result
    unfold erase at hresult ⊢
    rw [heq]
    exact hresult
  . have htrace := hread.trace
    unfold Trail.trace at htrace ⊢
    rw [heq]
    exact htrace

end Reads

section Whole

variable {id : SavedIdentity} {r : Ref} {head : Hash} {objs : List Bytes} {bs : Bytes} {a : α}
  {es : List BundleEvent}

theorem Meets.attempt {x : BundleDec α} (h : Meets x bs a es)
    : Meets (Trail.attempt x) bs (some a) es := by
  intro rest
  have hresult := (h rest).result
  constructor
  . unfold erase Trail.attempt at *
    rw [Prod.mk.injEq] at hresult
    rw [hresult.1, hresult.2]
  . exact (h rest).trace

theorem Meets.returning {x : BundleDec α} (f : α → β) (h : Meets x bs a es)
    : Meets (do let a ← x; return f a) bs (f a) es := by
  have hreturn : Meets ((fun a => Pure.pure (f a)) a) [] (f a) [] := Meets.pure (f a)
  have hboth := Meets.bind (f := fun a => Pure.pure (f a)) h hreturn
  rw [List.append_nil, List.append_nil] at hboth
  exact hboth

theorem Meets.usbNumber (v : Nat) {n : Nat} (hn : n < 2 ^ 64)
    : Meets (bundleUsbField.usbNumber v) (cborUint n) n [] := by
  intro rest
  rcases readHead_putHead rest (Nat.zero_lt_succ 7) hn with ⟨ai, h⟩
  constructor
  . unfold erase bundleUsbField.usbNumber cborUint
    rw [h]
    rfl
  . unfold Trail.trace bundleUsbField.usbNumber cborUint
    rw [h]
    rfl

-- One turn of the loop over the fields of a USB identity.
def usbTurn (u : UsbFields) : BundleDec UsbFields := do
  let mk ← Trail.lift cdecUint
  bundleUsbField mk u

theorem Meets.usbTurn {key : Nat} {u u' : UsbFields} (hkey : key < 2 ^ 64)
    (h : Meets (bundleUsbField key u) bs u' []) : Meets (usbTurn u) (cborUint key ++ bs) u' [] :=
  @Meets.key _ _ _ _ (fun key => bundleUsbField key u) key hkey h

theorem meets_usb (h : id.Short) : Meets bundleUsb (usbBytes id) () [usbEvent id] := by
  have hvid := id.usbVid.toNat_lt
  have hpid := id.usbPid.toNat_lt
  have hturns : Meets (Trail.loop 3 Harp.usbTurn ⟨0, 0, none⟩)
      ((cborUint 0 ++ cborUint id.usbVid.toNat) ++ ((cborUint 1 ++ cborUint id.usbPid.toNat)
        ++ ((cborUint 2 ++ cborText id.usbSerial.b) ++ [])))
      ⟨id.usbVid.toNat, id.usbPid.toNat, some id.usbSerial.b⟩ [] := by
    apply Meets.loop_quiet
    . apply Meets.usbTurn (by omega)
      exact (Meets.usbNumber 0 (show id.usbVid.toNat < 2 ^ 64 by omega)).returning
        (fun vid => UsbFields.mk vid 0 none)
    . apply Meets.loop_quiet
      . apply Meets.usbTurn (by omega)
        exact (Meets.usbNumber 0 (show id.usbPid.toNat < 2 ^ 64 by omega)).returning
          (fun pid => UsbFields.mk id.usbVid.toNat pid none)
      . apply Meets.loop_quiet
        . apply Meets.usbTurn (by omega)
          have htext : Meets (Trail.lift cdecText) (cborText id.usbSerial.b) id.usbSerial.b [] :=
            Meets.lift fun rest => cdecText_cborText id.usbSerial.b rest h.usbSerial
          exact htext.attempt.returning
            (fun s => UsbFields.mk id.usbVid.toNat id.usbPid.toNat (s <|> none))
        . exact Meets.loop_zero _ _
  have hbytes : usbBytes id = cborMap 3 ++ (((cborUint 0 ++ cborUint id.usbVid.toNat)
      ++ ((cborUint 1 ++ cborUint id.usbPid.toNat) ++ ((cborUint 2 ++ cborText id.usbSerial.b)
        ++ []))) ++ []) := by
    unfold usbBytes encFields
    simp only [List.length_cons, List.length_nil, List.flatMap_cons, List.flatMap_nil,
      List.append_nil, List.append_assoc, Nat.reduceAdd]
  rw [hbytes]
  apply Meets.map _ (by omega)
  . exact hturns.bind (f := fun u => Trail.emit (BundleEvent.usb u.vid u.pid u.serial))
      (Meets.emit rfl)
  . have h0 := length_putHead_pos 0 0
    have h1 := length_putHead_pos 0 1
    have h2 := length_putHead_pos 0 2
    have hvid1 := length_putHead_pos 0 id.usbVid.toNat
    have hpid1 := length_putHead_pos 0 id.usbPid.toNat
    have hserial := length_cborText_pos id.usbSerial.b
    simp only [cborUint, List.length_append, List.length_nil]
    omega

/--
What is written names one head that a store gave, and the objects can be skipped one by one.
-/
structure BundleOk (id : SavedIdentity) (r : Ref) (head : Hash) (objs : List Bytes) : Prop where
  short : id.Short
  name : refNameOk r.name = true
  hash : r.hash = some head
  alg : head.b.head? = some 0x01
  length : objs.length < 2 ^ 64
  items : ∀ x ∈ objs, Item (fun _ => True) 33 x

theorem bundleEntries_pos (id : SavedIdentity) (r : Ref) (objs : List Bytes)
    : ∀ e ∈ bundleEntries id r objs, 0 < e.val.length := by
  have harray := length_putHead_pos 4 1
  have hobjs := length_putHead_pos 4 objs.length
  have hone := length_putHead_pos 0 1
  unfold bundleEntries
  simp only [List.forall_mem_cons]
  refine ⟨length_cborText_pos _, hone, length_encFields_pos _, ?_, ?_, length_encFields_pos _,
    by simp⟩
  . rw [List.length_append, cborArray]
    omega
  . rw [List.length_append, cborArray]
    omega

theorem meets_bundle (h : BundleOk id r head objs)
    : Meets bundleRead (bundleBytes id r objs) ()
        ((bundleEntries id r objs).flatMap Entry.events) := by
  have hfields : ∀ e ∈ bundleEntries id r objs, Meets (bundleField e.key) e.val () e.events := by
    unfold bundleEntries
    simp only [List.forall_mem_cons]
    refine ⟨?_, ?_, meets_identity h.short, meets_refs h.name h.hash h.alg,
      meets_objects h.length h.items, meets_usb h.short, by simp⟩
    . exact Meets.textEvent rfl (by decide)
    . exact Meets.skip (item_uint usual_true (by omega) 32)
  exact Meets.fieldsWhile (by simp [bundleEntries]) (by simp [bundleEntries])
    (bundleEntries_pos id r objs) hfields

section Items

variable {ok : Head → Prop}

theorem item_identity (hok : Usual ok) (h : id.Short) (levels : Nat)
    : Item ok (levels + 3) (encFields ((identityEntries id).map Entry.kv)) := by
  have hengine : Item ok (levels + 2) (encFields ((engineEntries id).map Entry.kv)) := by
    apply item_encFields hok
    . simp [engineEntries]
    . simp [engineEntries, Entry.kv]
    . unfold engineEntries
      simp only [List.map_cons, List.map_nil, List.forall_mem_cons, Entry.kv]
      exact ⟨item_text hok h.engineId levels, item_text hok h.engineVer levels,
        item_bytes hok (hash_lt _) levels, by simp⟩
  apply item_encFields hok
  . simp [identityEntries]
  . simp [identityEntries, Entry.kv]
  . unfold identityEntries
    simp only [List.map_cons, List.map_nil, List.forall_mem_cons, Entry.kv]
    exact ⟨item_numberText hok id.vendorId h.vendorName levels,
      item_numberText hok id.productId h.productName levels,
      item_text hok h.serial (levels + 1), hengine, by simp⟩

theorem item_usb (hok : Usual ok) (h : id.Short) (levels : Nat)
    : Item ok (levels + 2) (usbBytes id) := by
  have hvid := id.usbVid.toNat_lt
  have hpid := id.usbPid.toNat_lt
  unfold usbBytes
  apply item_encFields hok
  . simp
  . simp
  . simp only [List.forall_mem_cons]
    exact ⟨item_uint hok (by omega) levels, item_uint hok (by omega) levels,
      item_text hok h.usbSerial levels, by simp⟩

theorem item_ref (hok : Usual ok) (h : BundleOk id r head objs) (levels : Nat)
    : Item ok (levels + 2) (refEncode r) := by
  have hgen := r.generation.toNat_lt
  have hname := refNameOk_length h.name
  unfold refNameMax at hname
  have hbytes : refEncode r = encFields [(0, cborText r.name), (1, cborBytes head.b),
      (2, cborUint r.generation.toNat), (3, cborBool r.dirty)] := by
    unfold refEncode encFields
    rw [h.hash]
    simp only [List.length_cons, List.length_nil, List.flatMap_cons, List.flatMap_nil,
      List.append_nil, List.append_assoc, Nat.reduceAdd]
  rw [hbytes]
  apply item_encFields hok
  . simp
  . simp
  . simp only [List.forall_mem_cons]
    exact ⟨item_text hok (by omega) levels, item_bytes hok (hash_lt _) levels,
      item_uint hok (by omega) levels, item_bool hok r.dirty levels, by simp⟩

end Items

theorem meets_params (h : BundleOk id r head objs)
    : Meets bundleParamsRead (bundleBytes id r objs) ()
        ((paramsEntries id r objs).flatMap Entry.events) := by
  have hversion : Item (fun _ => True) 33 (cborUint 1) := item_uint usual_true (by omega) 32
  have hfields : ∀ e ∈ paramsEntries id r objs,
      Meets (bundleParamsField e.key) e.val () e.events := by
    unfold paramsEntries bundleEntries
    simp only [List.map_cons, List.map_nil, List.forall_mem_cons]
    refine ⟨?_, ?_, ?_, meets_refs h.name h.hash h.alg, meets_objects h.length h.items, ?_, by simp⟩
    . exact Meets.textEvent rfl (by decide)
    . exact Meets.skip hversion
    . exact Meets.skip (item_identity usual_true h.short 30)
    . exact Meets.skip (item_usb usual_true h.short 31)
  have hpos : ∀ e ∈ paramsEntries id r objs, 0 < e.val.length := by
    have hall := bundleEntries_pos id r objs
    unfold paramsEntries
    intro e he
    rcases List.mem_map.mp he with ⟨e', he', rfl⟩
    split <;> exact hall e' he'
  unfold bundleBytes
  rw [← paramsEntries_kv]
  exact Meets.fieldsWhile (by simp [paramsEntries, bundleEntries])
    (by simp [paramsEntries, bundleEntries]) hpos hfields

end Whole

end Harp
