import Mathlib.Algebra.NeZero
import Mathlib.Data.List.Basic
import Mathlib.Tactic.Ring

/-! Packing of a stream into elements of one width. Every element has a marker in
front of its share of the stream, and what the stream does not fill is filled
with the same letter. A long stream is first cut into chunks of one capacity. -/
namespace Packing

variable {α : Type*}

/-- The stream in `count` elements of the given width, each behind a marker. -/
def pack (pad : α) (width : Nat) : Nat → List α → List α
  | 0, _ => []
  | count + 1, stream =>
      (pad :: (stream.take width ++ List.replicate (width - stream.length) pad)) ++
        pack pad width count (stream.drop width)

/-- What is behind the markers of the first `count` elements. -/
def unpack (width : Nat) : Nat → List α → List α
  | 0, _ => []
  | count + 1, packed =>
      (packed.drop 1).take width ++ unpack width count (packed.drop (width + 1))

/-- The first `count` elements have their markers. -/
def Marked (pad : α) (width : Nat) : Nat → List α → Prop
  | 0, _ => True
  | count + 1, packed =>
      packed.head? = some pad ∧ Marked pad width count (packed.drop (width + 1))

theorem element_length (pad : α) (width : Nat) (stream : List α) :
    (stream.take width ++ List.replicate (width - stream.length) pad).length = width := by
  simp only [List.length_append, List.length_take, List.length_replicate]
  omega

theorem pack_length (pad : α) (width count : Nat) (stream : List α) :
    (pack pad width count stream).length = count * (width + 1) := by
  induction count generalizing stream with
  | zero => simp [pack]
  | succ count ih =>
      rw [pack, List.length_append, List.length_cons, element_length, ih]
      ring

/-- Where the stream has ended, only filling is left. -/
theorem pack_nil (pad : α) (width count : Nat) :
    pack pad width count [] = List.replicate (count * (width + 1)) pad := by
  induction count with
  | zero => simp [pack]
  | succ count ih =>
      rw [pack, List.drop_nil, ih, List.take_nil, List.nil_append, List.length_nil, Nat.sub_zero,
        ← List.replicate_succ, ← List.replicate_add]
      congr 1
      ring

theorem drop_element {width : Nat} {head : α} {element rest : List α}
    (h : element.length = width) : ((head :: element) ++ rest).drop (width + 1) = rest := by
  rw [← h, List.cons_append, List.drop_succ_cons, List.drop_left]

theorem marked_pack (pad : α) (width count : Nat) (stream : List α) :
    Marked pad width count (pack pad width count stream) := by
  induction count generalizing stream with
  | zero => trivial
  | succ count ih =>
      refine ⟨by simp [pack], ?_⟩
      rw [pack, drop_element (element_length pad width stream)]
      exact ih _

theorem Marked.head?_drop {pad : α} {width count i : Nat} {packed : List α}
    (h : Marked pad width count packed) (hi : i < count) :
    (packed.drop (i * (width + 1))).head? = some pad := by
  induction count generalizing packed i with
  | zero => omega
  | succ count ih =>
      cases i with
      | zero =>
          rw [Nat.zero_mul, List.drop_zero]
          exact h.1
      | succ i =>
          rw [Nat.succ_mul, Nat.add_comm, ← List.drop_drop]
          exact ih h.2 (by omega)

/-- Unpacking gives the stream back, followed by filling. -/
theorem unpack_pack (pad : α) (width count : Nat) (stream : List α)
    (h : stream.length ≤ count * width) :
    unpack width count (pack pad width count stream) =
      stream ++ List.replicate (count * width - stream.length) pad := by
  induction count generalizing stream with
  | zero =>
      have hnil : stream = [] := List.length_eq_zero_iff.mp (by omega)
      simp [unpack, hnil]
  | succ count ih =>
      have hbound : stream.length ≤ count * width + width := by rwa [← Nat.succ_mul]
      have hlength := element_length pad width stream
      rw [pack, unpack, drop_element hlength, ih _ (by rw [List.length_drop]; omega),
        List.cons_append, List.drop_succ_cons, List.drop_zero, List.take_left' hlength,
        List.append_assoc, List.length_drop, Nat.succ_mul]
      by_cases hw : stream.length ≤ width
      · rw [List.take_of_length_le hw, List.drop_of_length_le hw, List.nil_append,
          ← List.replicate_add]
        congr 2
        omega
      · rw [Nat.sub_eq_zero_of_le (by omega), List.replicate_zero, List.nil_append,
          ← List.append_assoc, List.take_append_drop]
        congr 2
        omega

/-- Pieces of the given size, the last of which may be shorter. -/
def chunks (n : Nat) [NeZero n] (stream : List α) : List (List α) :=
  match stream with
  | [] => []
  | a :: rest => (a :: rest).take n :: chunks n ((a :: rest).drop n)
termination_by stream.length
decreasing_by
  have := NeZero.pos n
  rw [List.length_drop, List.length_cons]
  omega

section

variable {n : Nat} [NeZero n]

theorem chunks_nil : chunks n ([] : List α) = [] := by
  rw [chunks]

theorem chunks_of_ne_nil {stream : List α} (h : stream ≠ []) :
    chunks n stream = stream.take n :: chunks n (stream.drop n) := by
  cases stream with
  | nil => exact (h rfl).elim
  | cons a rest => rw [chunks]

theorem chunks_single {stream : List α} (h : stream ≠ []) (hle : stream.length ≤ n) :
    chunks n stream = [stream] := by
  rw [chunks_of_ne_nil h, List.take_of_length_le hle, List.drop_of_length_le hle, chunks_nil]

/-- Induction over the chunks of a stream. -/
theorem chunks_induction {motive : List α → Prop} (nil : motive [])
    (cons : ∀ stream, stream ≠ [] → motive (stream.drop n) → motive stream)
    (stream : List α) : motive stream := by
  induction hm : stream.length using Nat.strong_induction_on generalizing stream with
  | h m ih =>
      by_cases h : stream = []
      · rw [h]
        exact nil
      · have hpos := List.length_pos_of_ne_nil h
        have := NeZero.pos n
        exact cons stream h (ih _ (by rw [List.length_drop]; omega) _ rfl)

theorem length_le_of_mem_chunks {stream chunk : List α} (h : chunk ∈ chunks n stream) :
    chunk.length ≤ n := by
  induction stream using chunks_induction (n := n) with
  | nil => simp [chunks_nil] at h
  | cons stream hne ih =>
      rw [chunks_of_ne_nil hne, List.mem_cons] at h
      rcases h with rfl | h
      · exact List.length_take_le n stream
      · exact ih h

/-- Only the last chunk has to be filled up. -/
theorem flatMap_chunks (pad : α) (stream : List α) :
    ∃ fill, ((chunks n stream).flatMap fun chunk =>
      chunk ++ List.replicate (n - chunk.length) pad) =
        stream ++ List.replicate fill pad := by
  induction stream using chunks_induction (n := n) with
  | nil => exact ⟨0, by simp [chunks_nil]⟩
  | cons stream hne ih =>
      rw [chunks_of_ne_nil hne, List.flatMap_cons]
      by_cases hle : stream.length ≤ n
      · rw [List.drop_of_length_le hle, chunks_nil, List.take_of_length_le hle]
        exact ⟨n - stream.length, by simp⟩
      · obtain ⟨fill, hfill⟩ := ih
        refine ⟨fill, ?_⟩
        rw [hfill, List.length_take, Nat.min_eq_left (by omega), Nat.sub_self,
          List.replicate_zero, List.append_nil, ← List.append_assoc, List.take_append_drop]

end

end Packing
