import Mathlib

/-! Files as sparse arrays: a size, and a value at every offset that is zero where nothing
has been written. Nothing here is about disks. -/
namespace Os161

@[ext] structure SparseFile (β : Type) where
  size : Nat
  bytes : Nat → β

namespace SparseFile
variable {β : Type}

def empty [Zero β] : SparseFile β := ⟨0,fun _ => 0⟩

/-- The values of `data` are put at `off` and after it. The file grows to hold them. -/
def write (f : SparseFile β) (off : Nat) (data : List β) : SparseFile β where
  size := max f.size (off + data.length)
  bytes i := if off ≤ i then data.getD (i - off) (f.bytes i) else f.bytes i

/-- What the file has of the `len` values from `off` on. -/
def read (f : SparseFile β) (off len : Nat) : List β :=
  (List.range (min (off + len) f.size - off)).map fun i => f.bytes (off + i)

/-- The file is cut or extended to `len`, and nothing is left beyond that. -/
def truncate [Zero β] (f : SparseFile β) (len : Nat) : SparseFile β where
  size := len
  bytes i := if i < len then f.bytes i else 0

def writeAll (f : SparseFile β) (off : Nat) : List (List β) → SparseFile β
  | [] => f
  | c :: cs => (f.write off c).writeAll (off + c.length) cs

def readAll (f : SparseFile β) (off : Nat) : List Nat → List β
  | [] => []
  | n :: ns => f.read off n ++ f.readAll (off + n) ns

section
variable (f : SparseFile β)
include f

theorem length_read (off len : Nat) :
    (f.read off len).length = min (off + len) f.size - off := by
  simp [read]

theorem write_append (off : Nat) (xs ys : List β) :
    (f.write off xs).write (off + xs.length) ys = f.write off (xs ++ ys) := by
  ext i
  · simp only [write,List.length_append]
    omega
  · simp only [write]
    by_cases first : off ≤ i
    · by_cases second : off + xs.length ≤ i
      · rw [if_pos second,if_pos first,if_pos first,List.getD_append_right _ _ _ _ (by omega),
          show i - off - xs.length = i - (off + xs.length) by omega,
          List.getD_eq_default xs _ (by omega)]
      · rw [if_neg second,if_pos first,if_pos first,List.getD_append _ _ _ _ (by omega)]
    · rw [if_neg (by omega),if_neg first,if_neg first]

theorem write_writeAll (off : Nat) (xs : List β) (chunks : List (List β)) :
    (f.write off xs).writeAll (off + xs.length) chunks = f.write off (xs ++ chunks.flatten) := by
  induction chunks generalizing xs with
  | nil => simp [writeAll]
  | cons c cs ih =>
    rw [writeAll,write_append,List.flatten_cons,← List.append_assoc,← ih,List.length_append,
      Nat.add_assoc]

theorem read_append (off n m : Nat) :
    f.read off n ++ f.read (off + n) m = f.read off (n + m) := by
  simp only [read]
  by_cases inside : off + n ≤ f.size
  · have whole : min (off + (n + m)) f.size - off = n + (min (off + n + m) f.size - (off + n)) := by
      omega
    rw [whole,List.range_add,List.map_append,List.map_map,show min (off + n) f.size - off = n by omega]
    congr 1
    exact List.map_congr_left fun i _ => by simp [Nat.add_assoc]
  · rw [show min (off + n + m) f.size - (off + n) = 0 by omega,
      show min (off + (n + m)) f.size - off = min (off + n) f.size - off by omega]
    simp

theorem readAll_eq (off : Nat) (lens : List Nat) :
    f.readAll off lens = f.read off lens.sum := by
  induction lens generalizing off with
  | nil => simp [readAll,read,Nat.sub_eq_zero_of_le (Nat.min_le_left _ _)]
  | cons n ns ih => rw [readAll,ih,read_append,List.sum_cons]

theorem read_write (off : Nat) (xs : List β) :
    (f.write off xs).read off xs.length = xs := by
  have length : ((f.write off xs).read off xs.length).length = xs.length := by
    rw [length_read]
    simp only [write]
    omega
  refine List.ext_getElem length fun i _ small => ?_
  simp only [read,write,List.getElem_map,List.getElem_range,Nat.le_add_right,if_true,
    Nat.add_sub_cancel_left,List.getD_eq_getElem _ _ small]

theorem read_back (off : Nat) (chunks : List (List β)) (lens : List Nat)
    (same : lens.sum = chunks.flatten.length) :
    (f.writeAll off chunks).readAll off lens = chunks.flatten := by
  rw [readAll_eq,same]
  cases chunks with
  | nil => simp [read,Nat.sub_eq_zero_of_le (Nat.min_le_left _ _)]
  | cons c cs =>
    rw [writeAll,write_writeAll,List.flatten_cons]
    exact read_write f off (c ++ cs.flatten)

end

end SparseFile
end Os161
