import Os161.VfsRefs

/-! No sequence of opens, closes, links, renames and removals by name halts the kernel,
unless it renames an entry that names the root directory. Between the calls a vnode is in
memory for as long as it is open, with one reference for each time it was opened. -/
namespace Os161

open SfsFs

/-- The file system, and the vnodes that its users have open. -/
structure VfsState where
  fs : SfsFs
  opens : List Nat

/-- The calls on names, and the close that goes with an open. -/
inductive NsOp where
  | openPath (path : CString) (openflags : UInt32)
  | close (vn : Nat)
  | link (oldpath newpath : CString)
  | rename (oldpath newpath : CString)
  | remove (path : CString)

namespace NsOp

/-- The call; an open hands a vnode to its caller. -/
def run : NsOp → Sfs (Option Nat)
  | .openPath path openflags => do return some (← vfsOpen path openflags)
  | .close vn => do vfsClose vn; return none
  | .link oldpath newpath => do vfsLink oldpath newpath; return none
  | .rename oldpath newpath => do vfsRename oldpath newpath; return none
  | .remove path => do vfsRemove path; return none

def opensAfter (opens : List Nat) : NsOp → Outcome Errno Panic (Option Nat) → List Nat
  | .close vn, _ => opens.erase vn
  | _, .ok (some vn) => vn :: opens
  | _, _ => opens

def after (op : NsOp) (t : VfsState) : VfsState where
  fs := (op.run t.fs).2
  opens := op.opensAfter t.opens (op.run t.fs).1

def Legal (t : VfsState) : NsOp → Prop
  | .close vn => vn ∈ t.opens
  | _ => True

def RenamesRoot (s : SfsFs) : NsOp → Prop
  | .rename oldpath newpath => Os161.RenamesRoot s oldpath newpath
  | _ => False

end NsOp

def openCounts (opens : List Nat) : Nat → Nat := fun k => opens.count k

/-- Between the calls, the references are those of the open vnodes. -/
def VfsState.Balanced (t : VfsState) : Prop :=
  Tallied (openCounts t.opens) (openCounts t.opens) t.fs

/-- Any finite sequence of calls, none of which renames the root. -/
abbrev NsRun : VfsState → VfsState → Prop :=
  Relation.ReflTransGen fun t u => ∃ op : NsOp, op.Legal t ∧ ¬op.RenamesRoot t.fs ∧ u = op.after t

section Runs
variable {n : Nat} {s : SfsFs} {t u : VfsState} {op : NsOp}

theorem openCounts_cons (vn : Nat) (opens : List Nat) :
    openCounts (vn :: opens) = another (openCounts opens) vn := by
  funext j
  simp only [openCounts,another,List.count_cons,beq_iff_eq,eq_comm (a := j)]

theorem openCounts_erase {vn : Nat} {opens : List Nat} (mem : vn ∈ opens) :
    openCounts opens = another (openCounts (opens.erase vn)) vn := by
  rw [← openCounts_cons]
  funext j
  exact (List.perm_cons_erase mem).count_eq j

theorem NsOp.run_spec (balanced : t.Balanced) (legal : op.Legal t) :
    op.run.wp t.fs
      (fun r s => ¬op.RenamesRoot t.fs ∧ VfsState.Balanced ⟨s,op.opensAfter t.opens (.ok r)⟩)
      (fun e s => ¬op.RenamesRoot t.fs ∧ VfsState.Balanced ⟨s,op.opensAfter t.opens (.err e)⟩)
      (fun _ _ => op.RenamesRoot t.fs) := by
  cases op with
  | openPath path openflags =>
    simp only [NsOp.run,wp_bind]
    apply wp_safe (vfsOpen_spec balanced path openflags)
    · intro vn s opened
      refine ⟨id,?_⟩
      rw [← openCounts_cons] at opened
      exact opened
    · exact fun _ _ back => ⟨id,back⟩
  | close vn =>
    simp only [NsOp.run,wp_bind]
    have tallied := balanced
    rw [VfsState.Balanced,openCounts_erase legal] at tallied
    exact wp_total (vfsClose_spec tallied fun _ => Nat.le_refl _) (fun _ _ back => ⟨id,back⟩)
  | link oldpath newpath =>
    simp only [NsOp.run,wp_bind]
    exact wp_safe (vfsLink_spec balanced oldpath newpath) (fun _ _ back => ⟨id,back⟩)
      (fun _ _ back => ⟨id,back⟩)
  | rename oldpath newpath =>
    simp only [NsOp.run,wp_bind]
    exact wp_mono (vfsRename_spec balanced oldpath newpath) (fun _ _ back => back)
      (fun _ _ back => back) (fun _ _ renames => renames)
  | remove path =>
    simp only [NsOp.run,wp_bind]
    exact wp_safe (vfsRemove_spec balanced path) (fun _ _ back => ⟨id,back⟩)
      (fun _ _ back => ⟨id,back⟩)

theorem VfsState.Balanced.step (balanced : t.Balanced) (legal : op.Legal t)
    (keeps : ¬op.RenamesRoot t.fs) : (op.after t).Balanced := by
  have spec := op.run_spec balanced legal
  rcases ran : op.run t.fs with ⟨r | e | site,s⟩
  · have same : op.after t = ⟨s,op.opensAfter t.opens (.ok r)⟩ := by rw [NsOp.after,ran]
    rw [same]
    exact (wp_ok spec ran).2
  · have same : op.after t = ⟨s,op.opensAfter t.opens (.err e)⟩ := by rw [NsOp.after,ran]
    rw [same]
    exact (wp_err spec ran).2
  · exact absurd (wp_halt spec ran) keeps

theorem VfsState.Balanced.run (balanced : t.Balanced) (run : NsRun t u) : u.Balanced := by
  induction run with
  | refl => exact balanced
  | tail _ step ih =>
    obtain ⟨op,legal,keeps,rfl⟩ := step
    exact ih.step legal keeps

theorem Empty.balanced (empty : Empty True n s) (size : FsSize n) : VfsState.Balanced ⟨s,[]⟩ where
  inv := empty.inv size
  handle k := by
    rw [SfsFs.handle,SfsFs.vnode?,empty.vnodes]
    rfl
  covered _ := Nat.le_refl _

/-- After any sequence of calls on a new file system none of which renames the root, the next
call returns or fails with an error code, unless it renames the root: then it halts. -/
theorem vfs_calls_return_iff (empty : Empty True n s) (size : FsSize n) (run : NsRun ⟨s,[]⟩ t)
    (legal : op.Legal t) :
    (∀ site, (op.run t.fs).1 ≠ .panic site) ↔ ¬op.RenamesRoot t.fs := by
  have spec := op.run_spec ((empty.balanced size).run run) legal
  rcases ran : op.run t.fs with ⟨r | e | site,s'⟩
  · exact ⟨fun _ => (wp_ok spec ran).1,fun _ _ => by simp⟩
  · exact ⟨fun _ => (wp_err spec ran).1,fun _ _ => by simp⟩
  · exact ⟨fun returns => absurd rfl (returns site),
      fun keeps => absurd (wp_halt spec ran) keeps⟩

/-! A new disk of 16 blocks -/

def newMap : Bitmap where
  nbits := 4096
  v := fun i => if i = 0 then 7 else if i = 1 then 0 else if i < 512 then 0xff else 0

def newImage (b : Nat) : Block :=
  if b = 0 then (newSuper 16 volname.chars).toBlock
  else if b = 1 then newRoot.toBlock
  else if b = 2 then mapBlock newMap 0
  else Block.zero

theorem newMap_bits (i : Nat) : newMap.isset i = newBit 16 i := by
  rcases Nat.lt_or_ge i 16 with low | high
  · have small : ∀ j < 16, newMap.isset j = newBit 16 j := by decide
    exact small i low
  rcases Nat.lt_or_ge i 4096 with inside | past
  · have set : newMap.isset i = true := by
      apply Bitmap.isset_of_full
      simp only [newMap,if_neg (show ¬i / 8 = 0 by omega),if_neg (show ¬i / 8 = 1 by omega),
        if_pos (show i / 8 < 512 by omega)]
    exact set.trans (decide_eq_true (Or.inr ⟨high,inside⟩)).symm
  · have clear : newMap.isset i = false := by
      simp only [Bitmap.isset,newMap,if_neg (show ¬i / 8 = 0 by omega),
        if_neg (show ¬i / 8 = 1 by omega),if_neg (show ¬i / 8 < 512 by omega),UInt8.zero_and,
        bne_self_eq_false]
    have blocks : sfsBitblocks 16 = 1 := by decide
    have bits : sfsBitmapsize 16 = 4096 := by decide
    rw [clear,newBit,blocks,bits]
    exact (decide_eq_false (by omega)).symm

theorem newImage_formatted : Formatted 16 volname.chars newImage where
  super := SfsSuper.ofBlock_toBlock _
  root := SfsInode.ofBlock_toBlock _
  map := by
    refine ⟨newMap,fun j inside => ?_,newMap_bits⟩
    obtain rfl : j = 0 := by
      have blocks : sfsBitblocks 16 = 1 := by decide
      omega
    rfl

def mounted : VfsState := ⟨(sfsDomount (freshFs 16 newImage)).2,[]⟩

theorem mounted_empty : Empty True 16 mounted.fs := by
  have holds := newImage_formatted.holds size_sixteen
  obtain ⟨⟨⟩,t,ran,mount⟩ :=
    wp_returns (sfsDomount_spec (newImage_formatted.mountable size_sixteen (by decide) holds))
  have same : mounted.fs = t := by rw [mounted,ran]
  rw [same]
  exact newImage_formatted.empty size_sixteen (by decide) holds mount

theorem nul_notMem_nil : (0 : UInt8) ∉ ([] : List UInt8) := List.not_mem_nil

def pathRoot : CString := ⟨[],nul_notMem_nil⟩

def pathX : CString := ⟨[120],by decide⟩
def pathY : CString := ⟨[121],by decide⟩

def xMade : VfsState := (NsOp.openPath pathX (oRdwr ||| oCreat)).after mounted

def xRoot : VfsState := (NsOp.link pathRoot pathX).after mounted

theorem NsRun.single (op : NsOp) (legal : op.Legal t) (keeps : ¬op.RenamesRoot t.fs) :
    NsRun t (op.after t) := Relation.ReflTransGen.single ⟨op,legal,keeps,rfl⟩

theorem vfs_calls_return_xMade : NsRun mounted xMade ∧
    ∀ site, ((NsOp.rename pathX pathY).run xMade.fs).1 ≠ .panic site := by
  have run : NsRun mounted xMade := .single (.openPath pathX (oRdwr ||| oCreat)) trivial id
  have legal : (NsOp.rename pathX pathY).Legal xMade := trivial
  refine ⟨run,(vfs_calls_return_iff mounted_empty size_sixteen run legal).mpr ?_⟩
  -- the name belongs to inode 3
  have distinct := ((mounted_empty.balanced size_sixteen).run run).inv.dir.distinct
  have taken : (xMade.fs.view 1).Taken 0 := ⟨by decide +kernel,by decide +kernel⟩
  have name : ((xMade.fs.view 1).entry 0).name = pathX.subpath.chars := by decide +kernel
  have number : ((xMade.fs.view 1).entry 0).sfdIno.toNat = 3 := by decide +kernel
  rintro ⟨-,-,slot,entry⟩
  obtain rfl : slot = 0 := distinct _ _ entry.taken taken (entry.name.trans name.symm)
  exact absurd (entry.number.symm.trans number) (by decide)

/-- Linking the root directory under a name succeeds, and renaming that halts the kernel. -/
theorem vfs_rename_root_halts : Empty True 16 mounted.fs ∧
    ((NsOp.link pathRoot pathX).run mounted.fs).1 = .ok none ∧ NsRun mounted xRoot ∧
    ((NsOp.rename pathX pathY).run xRoot.fs).1 = .panic .renameType :=
  ⟨mounted_empty,by decide +kernel,.single (.link pathRoot pathX) trivial id,by decide +kernel⟩

end Runs

end Os161
