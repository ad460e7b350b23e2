import Os161.SfsFaults
import Os161.SparseFile

/-! File I/O against an abstract model: every file is a sparse array of bytes. Reads and
writes refine it. A truncation does so unless it leaves old data in a block that it keeps. -/
namespace Os161

open SfsFs

namespace Uio

def data (u : Uio) : List UInt8 := (List.range u.uioResid).map fun i => u.mem (u.iovBase + i)

structure KernelRequest (u : Uio) : Prop where
  low : 0 ≤ u.uioOffset
  bound : u.uioOffset + u.uioResid ≤ 143 * 512
  len : u.iovLen = u.uioResid
  seg : u.uioSegflg = .sysspace
  space : u.spaceOk = true

section Request
variable {u : Uio}

theorem KernelRequest.sized (request : u.KernelRequest) : u.Sized where
  low := request.low
  high := by have := request.bound; omega
  resid := by have := request.bound; have := request.low; omega
  len := Nat.le_of_eq request.len.symm
  space := request.space

theorem KernelRequest.pos_le (request : u.KernelRequest) : u.pos + u.uioResid ≤ 143 * 512 := by
  have := request.sized.pos_eq
  have := request.bound
  omega

theorem KernelRequest.offset_le (request : u.KernelRequest) {n : Nat} (le : n ≤ u.uioResid) :
    i32 (u.uioOffset + n) = u.uioOffset + n := by
  have := request.low
  have := request.bound
  exact i32_of_bounds (by omega) (by omega)

theorem length_data : u.data.length = u.uioResid := by simp [data]

theorem getD_data (u : Uio) (i : Nat) (d : UInt8) :
    u.data.getD i d = if i < u.uioResid then u.mem (u.iovBase + i) else d := by
  by_cases inside : i < u.uioResid
  · rw [if_pos inside,List.getD_eq_getElem _ _ (by rw [length_data]; exact inside)]
    simp [data]
  · rw [if_neg inside,List.getD_eq_default _ _ (by rw [length_data]; omega)]

end Request
end Uio

inductive FileOp where
  | write (file : Nat) (u : Uio)
  | read (file : Nat) (u : Uio)
  | truncate (file : Nat) (len : Int)

abbrev Files := Nat → SparseFile UInt8

namespace FileOp

/-- The call, with the uio that it leaves to the caller. -/
def call : FileOp → Sfs (Option Uio)
  | .write file u => do
    let (_,v) ← Sfs.withUio u (sfsWrite file)
    return some v
  | .read file u => do
    let (_,v) ← Sfs.withUio u (sfsRead file)
    return some v
  | .truncate file len => do
    sfsTruncate file len
    return none

def after (op : FileOp) (s : SfsFs) : SfsFs := (op.call s).2

/-- The file is open, the request is one for the call, and a write has the room it needs. -/
def Proper (s : SfsFs) : FileOp → Prop
  | .write file u => s.loaded file ∧ file ≠ 1 ∧ u.KernelRequest ∧ u.uioRw = .write ∧
      s.missing file u.firstBlock u.endBlock ≤ s.free
  | .read file u => s.loaded file ∧ file ≠ 1 ∧ u.KernelRequest ∧ u.uioRw = .read
  | .truncate file len => s.loaded file ∧ file ≠ 1 ∧ 0 ≤ len ∧ len ≤ 143 * 512

def IsIo : FileOp → Prop
  | .truncate _ _ => False
  | _ => True

def model (files : Files) : FileOp → Files
  | .write file u => Function.update files file ((files file).write u.pos u.data)
  | .read _ _ => files
  | .truncate file len => Function.update files file ((files file).truncate len.toNat)

/-- What the call should hand back: the cursor has moved over the bytes transferred, and a
read has put them in memory. -/
def Answered (files : Files) (result : Option Uio) : FileOp → Prop
  | .write _ u => ∃ v, result = some v ∧ v.uioResid = 0 ∧ v.uioOffset = u.uioOffset + u.uioResid
  | .read file u => ∃ v, result = some v ∧
      v.uioResid = u.uioResid - ((files file).read u.pos u.uioResid).length ∧
      v.uioOffset = u.uioOffset + ((files file).read u.pos u.uioResid).length ∧
      ((List.range ((files file).read u.pos u.uioResid).length).map fun i => v.mem (u.iovBase + i)) =
        (files file).read u.pos u.uioResid
  | .truncate _ _ => result = none

/-- A truncation that keeps a block with old data beyond the new end of the file: the rest
of the last block, or a block of the indirect block that is one too far. -/
def Residue (s : SfsFs) : FileOp → Prop
  | .truncate file len => ∃ o : Nat, len ≤ o ∧
      truncateKeeps (truncateBlocklen len) (o / 512) = true ∧ (s.view file).content o ≠ 0
  | _ => False

end FileOp

namespace SfsFs

def sparse (s : SfsFs) (k : Nat) : SparseFile UInt8 := ⟨(s.view k).size,(s.view k).content⟩

/-- The files in use are what they should be, and an open file has a size that `off_t` can
hold. -/
structure Represents (s : SfsFs) (files : Files) : Prop where
  same : ∀ k, s.Live k → s.sparse k = files k
  small : ∀ k, s.loaded k → (files k).size < 2^31

end SfsFs

section Steps
variable {s t : SfsFs} {files : Files} {file : Nat} {u : Uio} {len : Int}

theorem SfsFs.Represents.update (start : s.Represents files) (frame : Frame (Others s.Live file) s t)
    (notRoot : file ≠ 1) {f : SparseFile UInt8} (self : t.sparse file = f) (small : f.size < 2^31) :
    t.Represents (Function.update files file f) := by
  refine ⟨fun k live => ?_,fun k isLoaded => ?_⟩
  · by_cases atFile : k = file
    · rw [atFile,Function.update_self,self]
    · have before := (frame.live_iff notRoot k).mp live
      rw [Function.update_of_ne atFile,sparse,frame.views k ⟨before,atFile⟩]
      exact start.same k before
  · by_cases atFile : k = file
    · rw [atFile,Function.update_self]
      exact small
    · rw [Function.update_of_ne atFile]
      exact start.small k (frame.loaded.mp isLoaded)

theorem ioGrow_eq {size : Nat} (small : size < 2^31) (p : Nat) : ioGrow size p = max size p := by
  rw [ioGrow,i32_of_bounds (by omega) (by omega)]
  split <;> omega

theorem overwrite_eq_write (f : SparseFile UInt8) (u : Uio) :
    overwrite f.bytes u.pos (fun i => u.mem (u.iovBase + i)) u.uioResid =
      (f.write u.pos u.data).bytes := by
  funext i
  simp only [overwrite,SparseFile.write,Uio.getD_data]
  by_cases first : u.pos ≤ i
  · rw [if_pos first]
    by_cases last : i < u.pos + u.uioResid
    · rw [if_pos ⟨first,last⟩,if_pos (by omega)]
    · rw [if_neg (fun both => last both.2),if_neg (by omega)]
  · rw [if_neg (fun both => first both.1),if_neg first]

theorem FileOp.write_spec (inv : Inv True s) (start : s.Represents files)
    (proper : (FileOp.write file u).Proper s) :
    (FileOp.write file u).call.wp s
      (fun r t => Inv True t ∧ t.Represents ((FileOp.write file u).model files) ∧
        (FileOp.write file u).Answered files r) never never := by
  obtain ⟨isLoaded,notRoot,request,writing,room⟩ := proper
  have sized := request.sized
  have bound := request.pos_le
  have offset := request.offset_le (Nat.le_refl _)
  have same := start.same file (.of_loaded isLoaded)
  have small := start.small file isLoaded
  simp only [FileOp.call,wp_bind,Sfs.wp_withUio,sfsWrite,wp_read,wp_assert,
    writing,decide_true,if_true,wp_pure]
  have call := sfsIo_write (a := ⟨s,u⟩) inv.consistent (.of_loaded isLoaded) isLoaded sized writing
  apply wp_ends call
  · rintro _ t ⟨written,uio,-⟩
    have view := written.self
    refine ⟨inv.wrote written.consistent written.frame notRoot (by rw [view]),
      start.update written.frame notRoot ?_ ?_,t.uio,rfl,?_,?_⟩
    · rw [← same] at small ⊢
      rw [sparse,view]
      refine SparseFile.ext ?_ (overwrite_eq_write (s.sparse file) u)
      simp only [SparseFile.write,Uio.length_data]
      exact ioGrow_eq small _
    · simp only [SparseFile.write,Uio.length_data]
      omega
    · rw [uio]
      simp only [Uio.advance,Int.sub_self,u32_zero]
    · rw [uio]
      exact offset
  · rintro e t ⟨-,-,-,-,-,far | ⟨-,-,full⟩ | ⟨-,lax⟩ | ⟨-,user⟩⟩
    · have : u.endBlock ≤ 143 := by
        unfold Uio.endBlock
        omega
      exact absurd far.2 (Nat.not_lt.mpr this)
    · exact absurd (full trivial) (Nat.not_lt.mpr room)
    · exact lax trivial
    · exact user request.seg

theorem ioAvail_eq {size : Nat} (small : size < 2^31) (p resid : Nat) :
    ioAvail size p resid = min (p + resid) size - p := by
  rw [ioAvail,i32_of_bounds (by omega) (by omega)]
  omega

theorem FileOp.read_spec (inv : Inv True s) (start : s.Represents files)
    (proper : (FileOp.read file u).Proper s) :
    (FileOp.read file u).call.wp s
      (fun r t => Inv True t ∧ t.Represents ((FileOp.read file u).model files) ∧
        (FileOp.read file u).Answered files r) never never := by
  obtain ⟨isLoaded,notRoot,request,reading⟩ := proper
  have sized := request.sized
  have bound : u.uioOffset + u.uioResid < 2^31 := by have := request.bound; omega
  have same := start.same file (.of_loaded isLoaded)
  have small := start.small file isLoaded
  rw [← same] at small
  simp only [FileOp.call,wp_bind,Sfs.wp_withUio,sfsRead,wp_read,wp_assert,
    reading,decide_true,if_true,wp_pure]
  have call := sfsIo_read (a := ⟨s,u⟩) inv.consistent (.of_loaded isLoaded) isLoaded sized bound
    reading
  apply wp_ends call
  · rintro _ t ⟨⟨m,ticked⟩,uio⟩
    have avail := ioAvail_eq small u.pos u.uioResid
    have length := (s.sparse file).length_read u.pos u.uioResid
    have least : ((s.sparse file).read u.pos u.uioResid).length ≤ u.uioResid := by omega
    rw [ticked]
    refine ⟨inv.later (Later.tick s m),⟨start.same,start.small⟩,t.uio,rfl,?_⟩
    rw [← same,uio]
    simp only [Uio.moved,reading]
    rw [show ioAvail (s.view file).size u.pos u.uioResid = _ from avail.trans length.symm]
    refine ⟨?_,request.offset_le least,?_⟩
    · exact u32_of_bounds (by omega) (by have := sized.resid; omega) |>.trans (by omega)
    · rw [length]
      refine List.map_congr_left fun i mem => ?_
      have inside := List.mem_range.mp mem
      simp only [overwrite]
      rw [if_pos ⟨Nat.le_add_right _ _,Nat.add_lt_add_left inside _⟩,Nat.add_sub_cancel_left]
      rfl
  · rintro e t ⟨-,far | ⟨-,write,-⟩ | ⟨-,lax⟩ | ⟨-,user⟩,-⟩
    · have := request.pos_le
      have : u.endBlock ≤ 143 := by
        unfold Uio.endBlock
        omega
      exact absurd far.2 (Nat.not_lt.mpr this)
    · exact absurd (reading.symm.trans write) (by decide)
    · exact lax trivial
    · exact user request.seg

theorem FileOp.truncate_spec (inv : Inv True s) (proper : (FileOp.truncate file len).Proper s) :
    (FileOp.truncate file len).call.wp s
      (fun r t => Inv True t ∧ r = none ∧ Truncated True s.Live file len s t) never never := by
  obtain ⟨isLoaded,notRoot,-⟩ := proper
  simp only [FileOp.call,wp_bind,wp_pure]
  apply wp_ends (sfsTruncate_spec inv.consistent (.of_loaded isLoaded) isLoaded len)
  · intro _ t truncated
    exact ⟨inv.wrote truncated.consistent truncated.frame notRoot (by rw [truncated.view]),trivial,
      truncated⟩
  · exact fun _ _ h => h.2.1 trivial

theorem truncateKeeps_below (low : 0 ≤ len) (high : len ≤ 143 * 512) {o : Nat} (below : o < len) :
    truncateKeeps (truncateBlocklen len) (o / 512) = true := by
  rw [truncateBlocklen_eq low high,truncateKeeps]
  split
  · exact decide_eq_true (by omega)
  · exact decide_eq_true (by omega)

theorem Truncated.represents_iff (start : s.Represents files)
    (proper : (FileOp.truncate file len).Proper s) (truncated : Truncated True s.Live file len s t) :
    t.Represents ((FileOp.truncate file len).model files) ↔ ¬(FileOp.truncate file len).Residue s := by
  obtain ⟨isLoaded,notRoot,low,high⟩ := proper
  have same := start.same file (.of_loaded isLoaded)
  have content : (s.view file).content = (files file).bytes := congrArg SparseFile.bytes same
  have size : u32 len = len.toNat := u32_of_bounds low (by omega)
  constructor
  · rintro represents ⟨o,beyond,kept,stale⟩
    have liveT : t.Live file := .of_loaded (truncated.frame.loaded.mpr isLoaded)
    have bytes := congrArg SparseFile.bytes (represents.same file liveT)
    have atO := congrFun bytes o
    simp only [FileOp.model,Function.update_self,SparseFile.truncate,sparse,truncated.view,kept,
      if_true,if_neg (show ¬o < len.toNat by omega)] at atO
    exact stale atO
  · intro clean
    refine start.update truncated.frame notRoot ?_ ?_
    · rw [sparse,truncated.view]
      refine SparseFile.ext size ?_
      funext o
      simp only [SparseFile.truncate,content]
      by_cases below : o < len.toNat
      · rw [if_pos below,if_pos (truncateKeeps_below low high (by omega))]
      · rw [if_neg below]
        split
        · next kept =>
          by_contra stale
          exact clean ⟨o,by omega,kept,by rw [content]; exact stale⟩
        · rfl
    · simp only [SparseFile.truncate]
      omega

end Steps

/-! Runs -/

/-- A finite sequence of proper calls of the allowed kind. -/
inductive FileRun (allowed : SfsFs → FileOp → Prop) (s : SfsFs) : List FileOp → SfsFs → Prop where
  | start : FileRun allowed s [] s
  | step {ops : List FileOp} {t : SfsFs} (run : FileRun allowed s ops t) (op : FileOp)
      (proper : op.Proper t) (allow : allowed t op) : FileRun allowed s (ops ++ [op]) (op.after t)

section Runs
variable {s t : SfsFs} {files : Files} {ops : List FileOp} {op : FileOp}

theorem FileOp.call_spec (inv : Inv True s) (start : s.Represents files) (proper : op.Proper s) :
    ∃ r, op.call s = (.ok r,op.after s) ∧ Inv True (op.after s) ∧ op.Answered files r ∧
      ((op.after s).Represents (op.model files) ↔ ¬op.Residue s) := by
  cases op with
  | write file u =>
    obtain ⟨r,t,ran,invT,represents,answered⟩ := wp_returns (write_spec inv start proper)
    have last : (FileOp.write file u).after s = t := congrArg Prod.snd ran
    rw [last]
    exact ⟨r,ran,invT,answered,fun _ => id,fun _ => represents⟩
  | read file u =>
    obtain ⟨r,t,ran,invT,represents,answered⟩ := wp_returns (read_spec inv start proper)
    have last : (FileOp.read file u).after s = t := congrArg Prod.snd ran
    rw [last]
    exact ⟨r,ran,invT,answered,fun _ => id,fun _ => represents⟩
  | truncate file len =>
    obtain ⟨r,t,ran,invT,answered,truncated⟩ := wp_returns (truncate_spec inv proper)
    have last : (FileOp.truncate file len).after s = t := congrArg Prod.snd ran
    rw [last]
    exact ⟨r,ran,invT,answered,truncated.represents_iff start proper⟩

theorem FileRun.represents {allowed : SfsFs → FileOp → Prop}
    (clean : ∀ u op, allowed u op → ¬FileOp.Residue u op) (inv : Inv True s)
    (start : s.Represents files) (run : FileRun allowed s ops t) :
    Inv True t ∧ t.Represents (ops.foldl FileOp.model files) := by
  induction run with
  | start => exact ⟨inv,start⟩
  | step run op proper allow ih =>
    obtain ⟨-,-,invT,-,represents⟩ := op.call_spec ih.1 ih.2 proper
    rw [List.foldl_append]
    exact ⟨invT,represents.mpr (clean _ op allow)⟩

theorem FileOp.IsIo.clean (io : op.IsIo) : ¬op.Residue s := by
  cases op with
  | write => exact id
  | read => exact id
  | truncate => exact io.elim

/-- Reads and writes refine sparse files. After any sequence of them the files are what the
model says, and the next call returns, transfers what the model says and keeps this. So a
region that is written in any chunks is read back in any other chunks. -/
theorem file_io_refines (inv : Inv True s) (start : s.Represents files)
    (run : FileRun (fun _ op => op.IsIo) s ops t) :
    t.Represents (ops.foldl FileOp.model files) ∧
    (∀ op : FileOp, op.Proper t → op.IsIo → ∃ r, op.call t = (.ok r,op.after t) ∧
      op.Answered (ops.foldl FileOp.model files) r ∧
      (op.after t).Represents (op.model (ops.foldl FileOp.model files))) ∧
    ∀ file off chunks lens, lens.sum = chunks.flatten.length →
      ((ops.foldl FileOp.model files file).writeAll off chunks).readAll off lens = chunks.flatten := by
  obtain ⟨invT,represents⟩ := run.represents (fun _ _ io => io.clean) inv start
  refine ⟨represents,fun op proper io => ?_,fun file off chunks lens same => ?_⟩
  · obtain ⟨r,ran,-,answered,next⟩ := op.call_spec invT represents proper
    exact ⟨r,ran,answered,next.mpr io.clean⟩
  · exact SparseFile.read_back _ off chunks lens same

/-- A new file system with an empty file in it, on a disk that does not fail. -/
def ready : SfsFs :=
  (SfsOp.creat volname true).after ((SfsOp.loadvnode 1).after (blankFs Lhd.io fun _ => true))

theorem ready_inv : Inv True ready := by
  have blank : Inv True (blankFs Lhd.io fun _ => true) :=
    (blankFs_empty (Or.inr ⟨rfl,fun _ => rfl⟩) fun _ _ => rfl).inv size_sixteen
  exact blank.reliableRun (blank.creat_run volname true)

theorem ready_represents : ready.Represents ready.sparse where
  same _ _ := rfl
  small := by
    have sizes : ∀ v ∈ ready.sfsVnodes, (ready.sparse v.svIno).size < 2^31 := by decide +kernel
    rintro k ⟨v,mem,rfl⟩
    exact sizes v mem

theorem Uio.mkKuio_request {data : Nat → UInt8} {len : Nat} {pos : Int} {rw_ : UioRw} (low : 0 ≤ pos)
    (bound : pos + len ≤ 143 * 512) : (Uio.mkKuio data len pos rw_).KernelRequest :=
  ⟨low,bound,rfl,rfl,rfl⟩

def fiveUio : Uio := Uio.mkKuio (fun i => UInt8.ofNat (i + 1)) 5 510 .write

def fiveBytes : FileOp := .write 3 fiveUio

theorem fiveBytes_proper : fiveBytes.Proper ready := by
  have isLoaded : ready.loaded 3 := by decide +kernel
  have room : ready.missing 3 fiveUio.firstBlock fiveUio.endBlock ≤ ready.free := by decide +kernel
  exact ⟨isLoaded,by decide,Uio.mkKuio_request (by decide) (by decide),rfl,room⟩

/-- Ten bytes from two before them, where the file has seven. -/
def windowUio : Uio := Uio.mkKuio (fun _ => 0xff) 10 508 .read

theorem file_io_refines_fiveBytes : ∃ v t,
    (FileOp.read 3 windowUio).call (fiveBytes.after ready) = (.ok (some v),t) ∧ v.uioResid = 3 ∧
      (List.range 7).map (fun i => v.mem (windowUio.iovBase + i)) = [0,0,1,2,3,4,5] := by
  have run : FileRun (fun _ op => op.IsIo) ready [fiveBytes] (fiveBytes.after ready) :=
    .step .start fiveBytes fiveBytes_proper trivial
  have isLoaded : (fiveBytes.after ready).loaded 3 := by decide +kernel
  have bytes : ([fiveBytes].foldl FileOp.model ready.sparse 3).read windowUio.pos windowUio.uioResid =
      [0,0,1,2,3,4,5] := by decide +kernel
  obtain ⟨_,ran,⟨v,rfl,resid,-,moved⟩,-⟩ := (file_io_refines ready_inv ready_represents run).2.1
    (.read 3 windowUio) ⟨isLoaded,by decide,Uio.mkKuio_request (by decide) (by decide),rfl⟩ trivial
  rw [bytes] at resid moved
  exact ⟨v,_,ran,resid.trans (by decide),moved⟩

/-! Truncated data -/

theorem Truncated.represents_self {file : Nat} {len : Int} (start : s.Represents files)
    (proper : (FileOp.truncate file len).Proper s) (truncated : Truncated True s.Live file len s t) :
    t.Represents (Function.update files file (t.sparse file)) := by
  obtain ⟨-,notRoot,low,high⟩ := proper
  refine start.update truncated.frame notRoot rfl ?_
  simp only [sparse,truncated.view]
  rw [u32_of_bounds low (by omega)]
  omega

theorem FileOp.residue_read (inv : Inv True s) (start : s.Represents files) {file o : Nat} {len : Int}
    (proper : (FileOp.truncate file len).Proper s) (kept : truncateKeeps (truncateBlocklen len) (o / 512) = true)
    (stale : (s.view file).content o ≠ 0) :
    ∃ v w, (FileOp.read file (Uio.mkKuio (fun _ => 0) 1 o .read)).call
      ((FileOp.truncate file (o + 1)).after ((FileOp.truncate file len).after s)) = (.ok (some v),w) ∧
      v.mem 0 = (s.view file).content o := by
  have inside : o / 512 < 143 := by
    by_contra far
    have hole : s.block file (o / 512) = 0 := by
      by_contra some_
      exact far (block_lt some_)
    exact stale (by simp only [view,data,hole,if_true,Block.bytes_zero])
  have room : (o : Int) + 1 ≤ 143 * 512 := by omega
  obtain ⟨_,s1,ran1,inv1,-,cut1⟩ := wp_returns (truncate_spec inv proper)
  have start1 := cut1.represents_self start proper
  have loaded1 : s1.loaded file := cut1.frame.loaded.mpr proper.1
  have proper1 : (FileOp.truncate file (o + 1)).Proper s1 := ⟨loaded1,proper.2.1,by omega,room⟩
  obtain ⟨_,s2,ran2,inv2,-,cut2⟩ := wp_returns (truncate_spec inv1 proper1)
  have start2 := cut2.represents_self start1 proper1
  have loaded2 : s2.loaded file := cut2.frame.loaded.mpr loaded1
  have proper2 : (FileOp.read file (Uio.mkKuio (fun _ => 0) 1 o .read)).Proper s2 :=
    ⟨loaded2,proper.2.1,Uio.mkKuio_request (by omega) room,rfl⟩
  have content : (s2.view file).content o = (s.view file).content o := by
    have below : truncateKeeps (truncateBlocklen ((o : Int) + 1)) (o / 512) = true :=
      truncateKeeps_below (by omega) room (by omega)
    simp only [cut2.view,below,if_true,cut1.view,kept]
  have size : (s2.view file).size = o + 1 := by
    simp only [cut2.view]
    rw [u32_of_bounds (by omega) (by omega)]
    omega
  have bytes : (s2.sparse file).read o 1 = [(s.view file).content o] := by
    simp [SparseFile.read,sparse,size,content]
  have last : (FileOp.truncate file (o + 1)).after ((FileOp.truncate file len).after s) = s2 := by
    rw [show (FileOp.truncate file len).after s = s1 from congrArg Prod.snd ran1]
    exact congrArg Prod.snd ran2
  obtain ⟨_,w,ran,-,-,v,rfl,-,-,moved⟩ := wp_returns (read_spec inv2 start2 proper2)
  rw [Function.update_self] at moved
  have pos : (Uio.mkKuio (fun _ => 0) 1 o .read).pos = o := rfl
  have resid : (Uio.mkKuio (fun _ => 0) 1 o .read).uioResid = 1 := rfl
  rw [pos,resid,bytes] at moved
  rw [last]
  exact ⟨v,w,ran,List.head_eq_of_cons_eq moved⟩

/-- As long as no truncation has left residue, the files are sparse arrays that end where
they were cut, so what was cut off reads as zero when a file grows again. The next call
keeps this exactly when it leaves no residue, and residue can be read. -/
theorem truncated_data_gone_iff (inv : Inv True s) (start : s.Represents files)
    (run : FileRun (fun u op => ¬op.Residue u) s ops t) :
    t.Represents (ops.foldl FileOp.model files) ∧
    (∀ op : FileOp, op.Proper t → ∃ r, op.call t = (.ok r,op.after t) ∧
      op.Answered (ops.foldl FileOp.model files) r ∧
      ((op.after t).Represents (op.model (ops.foldl FileOp.model files)) ↔ ¬op.Residue t)) ∧
    ∀ file len, (FileOp.truncate file len).Proper t → (FileOp.truncate file len).Residue t →
      ∃ (o : Nat) (v : Uio) (w : SfsFs), len ≤ o ∧
        (FileOp.read file (Uio.mkKuio (fun _ => 0) 1 o .read)).call
          ((FileOp.truncate file (o + 1)).after ((FileOp.truncate file len).after t)) =
          (.ok (some v),w) ∧ v.mem 0 ≠ 0 := by
  obtain ⟨invT,represents⟩ := run.represents (fun _ _ clean => clean) inv start
  refine ⟨represents,fun op proper => ?_,fun file len proper residue => ?_⟩
  · obtain ⟨r,ran,-,answered,next⟩ := op.call_spec invT represents proper
    exact ⟨r,ran,answered,next⟩
  · obtain ⟨o,beyond,kept,stale⟩ := residue
    obtain ⟨v,w,ran,same⟩ := FileOp.residue_read invT represents proper kept stale
    exact ⟨o,v,w,beyond,ran,same.symm ▸ stale⟩

theorem truncated_data_gone_fiveBytes : ((FileOp.truncate 3 0).after (fiveBytes.after ready)).Represents
    ([fiveBytes,.truncate 3 0].foldl FileOp.model ready.sparse) := by
  have run : FileRun (fun u op => ¬op.Residue u) ready [fiveBytes] (fiveBytes.after ready) :=
    .step .start fiveBytes fiveBytes_proper id
  have isLoaded : (fiveBytes.after ready).loaded 3 := by decide +kernel
  obtain ⟨_,-,-,next⟩ := (truncated_data_gone_iff ready_inv ready_represents run).2.1
    (.truncate 3 0) ⟨isLoaded,by decide,by decide,by decide⟩
  refine next.mpr ?_
  rintro ⟨o,-,kept,-⟩
  have none : truncateBlocklen 0 = 0 := truncateBlocklen_eq (by decide) (by decide)
  simp only [truncateKeeps,none] at kept
  split at kept
  · exact absurd (of_decide_eq_true kept) (Nat.not_lt_zero _)
  · exact absurd (of_decide_eq_true kept) (by simp; omega)

def byteAt (o : Nat) : FileOp := .write 3 (Uio.mkKuio (fun _ => 9) 1 o .write)

theorem byteAt_returns {o : Nat} {len : Int} (proper : (byteAt o).Proper ready)
    (isLoaded : ((byteAt o).after ready).loaded 3) (low : 0 ≤ len) (high : len ≤ 143 * 512)
    (room : (o : Int) + 1 ≤ 143 * 512) (kept : truncateKeeps (truncateBlocklen len) (o / 512) = true)
    (stale : (((byteAt o).after ready).view 3).content o = 9) :
    ∃ t v w, FileRun (fun _ _ => True) ready [byteAt o,.truncate 3 len,.truncate 3 (o + 1)] t ∧
      (FileOp.read 3 (Uio.mkKuio (fun _ => 0) 1 o .read)).call t = (.ok (some v),w) ∧ v.mem 0 = 9 := by
  obtain ⟨-,-,inv,-,represents⟩ := (byteAt o).call_spec ready_inv ready_represents proper
  have proper1 : (FileOp.truncate 3 len).Proper ((byteAt o).after ready) :=
    ⟨isLoaded,by decide,low,high⟩
  obtain ⟨_,s1,ran1,-,-,cut⟩ := wp_returns (FileOp.truncate_spec inv proper1)
  have last : (FileOp.truncate 3 len).after ((byteAt o).after ready) = s1 := congrArg Prod.snd ran1
  have proper2 : (FileOp.truncate 3 (o + 1)).Proper
      ((FileOp.truncate 3 len).after ((byteAt o).after ready)) := by
    rw [last]
    exact ⟨cut.frame.loaded.mpr isLoaded,by decide,by omega,room⟩
  obtain ⟨v,w,ran,same⟩ := FileOp.residue_read inv (represents.mpr id) proper1 kept
    (by rw [stale]; decide)
  exact ⟨_,v,w,((FileRun.start.step _ proper trivial).step _ proper1 trivial).step _ proper2 trivial,
    ran,same.trans stale⟩

/-- Both kinds of residue: a byte in the rest of the last block, and a block in the indirect
block that starts where the file ends. -/
theorem truncated_data_returns :
    (∃ t v w, FileRun (fun _ _ => True) ready [byteAt 100,.truncate 3 10,.truncate 3 101] t ∧
      (FileOp.read 3 (Uio.mkKuio (fun _ => 0) 1 100 .read)).call t = (.ok (some v),w) ∧ v.mem 0 = 9) ∧
    ∃ t v w, FileRun (fun _ _ => True) ready [byteAt 8192,.truncate 3 8192,.truncate 3 8193] t ∧
      (FileOp.read 3 (Uio.mkKuio (fun _ => 0) 1 8192 .read)).call t = (.ok (some v),w) ∧ v.mem 0 = 9 := by
  have isLoaded : ready.loaded 3 := by decide +kernel
  have proper : ∀ o : Nat, (o : Int) + 1 ≤ 143 * 512 →
      ready.missing 3 (o / 512) ((o + 1 + 511) / 512) ≤ ready.free → (byteAt o).Proper ready :=
    fun o bound room => ⟨isLoaded,by decide,Uio.mkKuio_request (by omega) bound,rfl,room⟩
  constructor
  · refine byteAt_returns (o := 100) (proper 100 (by decide) ?_) ?_ (by decide) (by decide) (by decide) ?_ ?_
      <;> decide +kernel
  · refine byteAt_returns (o := 8192) (proper 8192 (by decide) ?_) ?_ (by decide) (by decide) (by decide) ?_ ?_
      <;> decide +kernel

end Runs
end Os161
