import Os161.Vnodes

/-! `getdevice` of `vfslookup.c` as it works in place on its argument. The path is a buffer of
bytes that ends with its NUL; it is read and written by index, and an index outside the buffer
halts. The vnodes it selects from are those of `Vnodes`. -/
namespace Os161

inductive PathPanic where
  | vnode (site : VnodePanic)
  | overrun (index : Nat)
  deriving DecidableEq, Repr

structure PathCall where
  vnodes : Vnodes
  path : List UInt8

abbrev PathM (α : Type) := Exec PathCall Errno PathPanic α

namespace CString

def buffer (s : CString) : List UInt8 := s.chars ++ [0]

def ofBuffer (bytes : List UInt8) : CString where
  chars := bytes.takeWhile (· ≠ 0)
  noNul nul := absurd (List.mem_takeWhile_imp nul) (by simp)

def slashes (s : CString) : Nat := (s.chars.takeWhile (· = 47)).length

def mark (s : CString) : Option Nat := s.chars.findIdx? fun c => c = 58 ∨ c = 47

end CString

namespace PathCall

def onVnodes (call : VnodeM α) : PathM α :=
  zoom PathCall.vnodes (fun s v => { s with vnodes := v }) (mapPanic .vnode call)

def char (i : Nat) : PathM UInt8 := do
  match (← read).path[i]? with
  | some c => pure c
  | none => panic (.overrun i)

def setChar (i : Nat) (c : UInt8) : PathM Unit := do
  let s ← read
  if i < s.path.length then put { s with path := s.path.set i c }
  else panic (.overrun i)

def string : PathM CString := do
  let s ← read
  if 0 ∈ s.path then pure (CString.ofBuffer s.path) else panic (.overrun s.path.length)

/-- The loop that locates the first colon or slash. The results are `slash` and `colon`; `left`
is what the buffer holds from index `i` on. -/
def scan : Nat → Nat → PathM (Int × Int)
  | 0, i => panic (.overrun i)
  | left + 1, i => do
    let c ← char i
    if c = 0 then return (-1,-1)
    else if c = 58 then return (-1,i)
    else if c = 47 then return (i,-1)
    else scan left (i + 1)

/-- `while (path[i+1]=='/') i++`, which is also the loop that moves `path` itself. -/
def skip : Nat → Nat → PathM Nat
  | 0, i => panic (.overrun (i + 1))
  | left + 1, i => do
    if (← char (i + 1)) = 47 then skip left (i + 1) else return i

/-- The vnode for `/path` and `:path`. -/
def getdeviceRoot (ops : FsOps) : PathM Nat := do
  if (← char 0) = 47 then
    match (← read).vnodes.bootfs with
    | none => fail .enoent
    | some v =>
      onVnodes (Vnodes.vnodeIncref v)
      return v
  else
    assert ((← char 0) = 58) (.vnode .getdeviceColon)
    let v ← onVnodes Vnodes.vfsGetcurdir
    match ops.vnFs v with
    | none => panic (.vnode .getdeviceNoFs)
    | some fs =>
      let startvn ← onVnodes (Vnodes.fsopGetroot ops fs)
      onVnodes (Vnodes.vnodeDecref v)
      return startvn

/-- `getdevice`. The results are `startvn` and the index that `subpath` points to. -/
def getdevice (ops : FsOps) : PathM (Nat × Nat) := do
  let size := (← read).path.length
  let (slash,colon) ← scan size 0
  if colon < 0 ∧ slash ≠ 0 then
    let startvn ← onVnodes Vnodes.vfsGetcurdir
    return (startvn,0)
  else if colon > 0 then
    setChar colon.toNat 0
    let colon ← skip size colon.toNat
    let devname ← string
    let startvn ← onVnodes (Vnodes.vfsGetroot ops devname)
    return (startvn,colon + 1)
  else
    assert (colon = 0 ∨ slash = 0) (.vnode .getdeviceSlash)
    let startvn ← getdeviceRoot ops
    let path ← skip size 0
    return (startvn,path + 1)

end PathCall

/-! What a path says -/

inductive PathStart where
  | curdir
  | device (name : CString)
  | bootfs
  | curfs

namespace PathStart

def source (ops : FsOps) : PathStart → VnodeM Nat
  | .curdir => Vnodes.vfsGetcurdir
  | .device name => Vnodes.vfsGetroot ops name
  | .bootfs => do
    match (← read).bootfs with
    | none => fail .enoent
    | some v =>
      Vnodes.vnodeIncref v
      return v
  | .curfs => do
    let v ← Vnodes.vfsGetcurdir
    match ops.vnFs v with
    | none => panic .getdeviceNoFs
    | some fs =>
      let startvn ← Vnodes.fsopGetroot ops fs
      Vnodes.vnodeDecref v
      return startvn

def ofPath (path : CString) : PathStart × CString :=
  match path.mark with
  | none => (.curdir,path)
  | some i =>
    if path.chars[i]? = some 47 then
      if i = 0 then (.bootfs,(path.drop 1).subpath) else (.curdir,path)
    else if i = 0 then (.curfs,(path.drop 1).subpath)
    else (.device (path.take i),(path.drop (i + 1)).subpath)

def Absent (ops : FsOps) (s : Vnodes) : PathStart → Prop
  | .curdir | .curfs => s.cwd = none
  | .device name => ∃ code t, Vnodes.vfsGetroot ops name s = (.err code,t)
  | .bootfs => s.bootfs = none

/-- The vnodes that the source refers to exist, and the current directory is on a file system. -/
def Standing (ops : FsOps) (s : Vnodes) : PathStart → Prop
  | .curdir => ∀ v, s.cwd = some v → 0 < s.refs v
  | .device name => ∀ site t, Vnodes.vfsGetroot ops name s ≠ (.panic site,t)
  | .bootfs => ∀ v, s.bootfs = some v → 0 < s.refs v
  | .curfs => ∀ v, s.cwd = some v → 0 < s.refs v ∧ ops.vnFs v ≠ none

theorem vfsGetcurdir_cases (s : Vnodes) :
    Vnodes.vfsGetcurdir.wp s (fun v t => s.cwd = some v ∧ t = s.setRefs v (s.refs v + 1) ∧ 0 < s.refs v)
      (fun _ _ => s.cwd = none) (fun _ _ => ∃ v, s.cwd = some v ∧ s.refs v = 0) := by
  simp only [Vnodes.vfsGetcurdir,wp_bind,wp_read]
  cases here : s.cwd with
  | none => exact rfl
  | some v => by_cases alive : 0 < s.refs v <;> simp_all [Vnodes.vnodeIncref]

theorem source_spec (ops : FsOps) (s : Vnodes) (start : PathStart) :
    (start.source ops).wp s (fun _ _ => ¬start.Absent ops s) (fun _ _ => start.Absent ops s)
      (fun _ _ => ¬start.Absent ops s ∧ ¬start.Standing ops s) := by
  cases start with
  | curdir =>
    apply wp_mono (vfsGetcurdir_cases s)
    · rintro v t ⟨here,-⟩
      simp [Absent,here]
    · exact fun _ _ none_ => none_
    · rintro _ _ ⟨v,here,dead⟩
      exact ⟨by simp [Absent,here],fun standing => by simpa [dead] using standing v here⟩
  | device name =>
    simp only [Exec.wp,source,Absent,Standing]
    rcases Vnodes.vfsGetroot ops name s with ⟨_ | _ | _, t⟩ <;> simp
  | bootfs =>
    simp only [source,wp_bind,wp_read]
    cases here : s.bootfs with
    | none => exact here
    | some v =>
      by_cases alive : 0 < s.refs v <;>
        simp_all [Absent,Standing,Vnodes.vnodeIncref]
  | curfs =>
    simp only [source,wp_bind]
    apply wp_mono (vfsGetcurdir_cases s)
    · rintro v t ⟨here,rfl,alive⟩
      have present : ¬(PathStart.curfs).Absent ops s := by simp [Absent,here]
      cases fs : ops.vnFs v with
      | none => exact ⟨present,fun standing => (standing v here).2 fs⟩
      | some fs =>
        -- the reference that is dropped was taken by vfs_getcurdir
        have held : ∀ root, 0 < (Vnodes.setRefs (s.setRefs v (s.refs v + 1)) root
            ((s.setRefs v (s.refs v + 1)).refs root + 1)).refs v := by
          intro root
          by_cases same : v = root <;> simp [Vnodes.setRefs,Function.update_apply,same]
        have checked := fun root => decide_eq_true (held root)
        simp only [Vnodes.fsopGetroot,Vnodes.answer,Vnodes.handBack,Vnodes.vnodeDecref,
          Vnodes.vopReclaim,wp_bind,wp_read,wp_put,wp_pure,wp_modify,
          wp_assert]
        refine (if_pos (checked _)).mpr ?_
        rw [wp_ite]
        exact ⟨fun _ => present,fun _ => present⟩
    · exact fun _ _ none_ => none_
    · rintro _ _ ⟨v,here,dead⟩
      exact ⟨by simp [Absent,here],fun standing => by simpa [dead] using (standing v here).1⟩

end PathStart

/-! The loops on the buffer -/

namespace PathCall
variable {s : PathCall}

theorem char_run {i : Nat} {c : UInt8} (here : s.path[i]? = some c) : char i s = (.ok c,s) := by
  simp only [char,bind,read,here]
  rfl

def Plain (c : UInt8) : Prop := c ≠ 0 ∧ c ≠ 58 ∧ c ≠ 47

theorem scan_pass {text tail : List UInt8} {i left : Nat} (rest : s.path.drop i = text ++ tail)
    (plain : ∀ c ∈ text, Plain c) : scan (text.length + left) i s = scan left (i + text.length) s := by
  induction text generalizing i with
  | nil => simp
  | cons c text ih =>
    obtain ⟨notNul,notColon,notSlash⟩ := plain c List.mem_cons_self
    have here : s.path[i]? = some c := by rw [← List.head?_drop,rest]; rfl
    have next : s.path.drop (i + 1) = text ++ tail := by rw [← List.tail_drop,rest]; rfl
    rw [show (c :: text).length + left = text.length + left + 1 by simp only [List.length_cons]; omega,
      scan,bind_ok (char_run here),if_neg notNul,if_neg notColon,if_neg notSlash,
      ih next fun x mem => plain x (List.mem_cons_of_mem c mem)]
    simp only [List.length_cons]
    congr 1
    omega

theorem skip_run {slashes tail : List UInt8} {c : UInt8} {i left : Nat}
    (rest : s.path.drop (i + 1) = slashes ++ c :: tail) (all : ∀ x ∈ slashes, x = 47) (other : c ≠ 47)
    (enough : slashes.length < left) : skip left i s = (.ok (i + slashes.length),s) := by
  induction slashes generalizing i left with
  | nil =>
    cases left with
    | zero => simp at enough
    | succ left =>
      have here : s.path[i + 1]? = some c := by rw [← List.head?_drop,rest]; rfl
      rw [skip,bind_ok (char_run here),if_neg other]
      rfl
  | cons x slashes ih =>
    cases left with
    | zero => simp at enough
    | succ left =>
      have here : s.path[i + 1]? = some x := by rw [← List.head?_drop,rest]; rfl
      have next : s.path.drop (i + 1 + 1) = slashes ++ c :: tail := by
        rw [← List.tail_drop,rest]
        rfl
      rw [skip,bind_ok (char_run here),if_pos (all x List.mem_cons_self),
        ih next (fun y mem => all y (List.mem_cons_of_mem x mem)) (by simpa using enough)]
      simp only [List.length_cons]
      congr 2
      omega

theorem skip_text {text : CString} {i left : Nat} (rest : s.path.drop (i + 1) = text.buffer)
    (enough : text.chars.length < left) :
    skip left i s = (.ok (i + text.slashes),s) ∧
      s.path.drop (i + text.slashes + 1) = text.subpath.buffer := by
  have parts : text.buffer = text.chars.takeWhile (· = 47) ++ text.subpath.buffer := by
    rw [CString.buffer,CString.buffer,CString.subpath,← List.append_assoc,List.takeWhile_append_dropWhile]
  have stops : ∃ c tail, text.subpath.buffer = c :: tail ∧ c ≠ 47 := by
    cases chars : text.subpath.chars with
    | nil => exact ⟨0,[],by rw [CString.buffer,chars]; rfl,by decide⟩
    | cons c tail =>
      refine ⟨c,tail ++ [0],by rw [CString.buffer,chars]; rfl,?_⟩
      have := List.head?_dropWhile_not (p := (· = 47)) text.chars
      simpa [show text.chars.dropWhile (· = 47) = c :: tail from chars] using this
  obtain ⟨c,tail,stop,other⟩ := stops
  have short := (List.takeWhile_prefix (fun c => decide (c = 47)) (l := text.chars)).length_le
  constructor
  · exact skip_run (by rw [rest,parts,stop]) (fun x mem => by simpa using List.mem_takeWhile_imp mem)
      other (by omega)
  · rw [show i + text.slashes + 1 = i + 1 + text.slashes by omega,← List.drop_drop,rest,parts,
      CString.slashes,List.drop_left]

/-! The choice of the vnode -/

theorem string_run {text : CString} {tail : List UInt8} (here : s.path = text.buffer ++ tail) :
    string s = (.ok text,s) := by
  have mem : (0 : UInt8) ∈ s.path := by simp [here,CString.buffer]
  have chars : s.path.takeWhile (· ≠ 0) = text.chars := by
    rw [here,CString.buffer,List.append_assoc,List.takeWhile_append_of_pos,List.singleton_append,
      List.takeWhile_cons_of_neg (by simp),List.append_nil]
    exact fun c inside => by simpa using fun nul : c = 0 => text.noNul (nul ▸ inside)
  have same : CString.ofBuffer s.path = text := by
    cases text
    simp only [CString.ofBuffer,CString.mk.injEq]
    exact chars
  simp only [string,bind,read,if_pos mem,same]
  rfl

theorem onVnodes_bind (call : VnodeM α) (next : α → VnodeM β) :
    onVnodes (call >>= next) = onVnodes call >>= fun value => onVnodes (next value) := by
  funext t
  simp only [onVnodes,zoom,mapPanic,bind]
  rcases call t.vnodes with ⟨_ | _ | _, u⟩ <;> rfl

theorem getdeviceRoot_bootfs (ops : FsOps) (slash : s.path[0]? = some 47) :
    getdeviceRoot ops s = onVnodes (PathStart.source ops .bootfs) s := by
  rw [getdeviceRoot,bind_ok (char_run slash),if_pos rfl,PathStart.source,onVnodes_bind]
  simp only [bind_ok (show read s = (.ok s,s) from rfl),
    bind_ok (show onVnodes read s = (.ok s.vnodes,s) from rfl)]
  cases s.vnodes.bootfs with
  | none => rfl
  | some v => simp only [onVnodes_bind]; rfl

theorem getdeviceRoot_curfs (ops : FsOps) (colon : s.path[0]? = some 58) :
    getdeviceRoot ops s = onVnodes (PathStart.source ops .curfs) s := by
  rw [getdeviceRoot,bind_ok (char_run colon),if_neg (by decide),
    bind_ok (char_run colon),decide_eq_true rfl,
    bind_ok (show assert true _ s = (.ok (),s) from rfl),PathStart.source,onVnodes_bind]
  refine congrFun (congrArg (onVnodes Vnodes.vfsGetcurdir >>= ·) (funext fun v => ?_)) s
  cases ops.vnFs v with
  | none => rfl
  | some fs => simp only [onVnodes_bind]; rfl

theorem deliver {call : VnodeM Nat} {next : Nat → PathM (Nat × Nat)} {index : Nat}
    (rest : ∀ v t, next v { s with vnodes := t } = (.ok (v,index),{ s with vnodes := t })) :
    (onVnodes call >>= next) s = (do return (← onVnodes call,index) : PathM (Nat × Nat)) s := by
  simp only [onVnodes,zoom,mapPanic,bind]
  rcases call s.vnodes with ⟨v | _ | _, t⟩
  · exact rest v t
  · rfl
  · rfl

/-- `getdevice` on `path` takes its vnode from `start` and points `subpath` to the text `rest`. It
stays inside the buffer, writes at most the byte at the first colon or slash, and fails when
the source does. -/
structure Selects (ops : FsOps) (path : CString) (v : Vnodes) (start : PathStart) (rest : CString) :
    Prop where
  run : ∃ bytes index, getdevice ops ⟨v,path.buffer⟩ =
      (do return (← onVnodes (start.source ops),index) : PathM (Nat × Nat)) ⟨v,bytes⟩ ∧
    bytes.drop index = rest.buffer ∧ bytes.length = path.buffer.length ∧
    ∀ j, path.mark ≠ some j → bytes[j]? = path.buffer[j]?
  inside : ∀ i t, getdevice ops ⟨v,path.buffer⟩ ≠ (.panic (.overrun i),t)
  fails : (∃ code t, getdevice ops ⟨v,path.buffer⟩ = (.err code,t)) ↔ start.Absent ops v
  returns : start.Standing ops v → ∀ site t, getdevice ops ⟨v,path.buffer⟩ ≠ (.panic site,t)

theorem Selects.of_run {ops : FsOps} {path rest : CString} {v : Vnodes} {start : PathStart}
    (run : ∃ bytes index, getdevice ops ⟨v,path.buffer⟩ =
        (do return (← onVnodes (start.source ops),index) : PathM (Nat × Nat)) ⟨v,bytes⟩ ∧
      bytes.drop index = rest.buffer ∧ bytes.length = path.buffer.length ∧
      ∀ j, path.mark ≠ some j → bytes[j]? = path.buffer[j]?) : Selects ops path v start rest := by
  obtain ⟨bytes,index,same,-⟩ := id run
  have ends : (do return (← onVnodes (start.source ops),index) : PathM (Nat × Nat)).wp ⟨v,bytes⟩
      (fun _ _ => ¬start.Absent ops v) (fun _ _ => start.Absent ops v)
      (fun site _ => (∃ p, site = .vnode p) ∧ ¬start.Absent ops v ∧ ¬start.Standing ops v) := by
    simp only [onVnodes,wp_bind,wp_zoom,wp_mapPanic,wp_pure]
    exact wp_mono (start.source_spec ops v) (fun _ _ h => h) (fun _ _ h => h)
      (fun site _ h => ⟨⟨site,rfl⟩,h⟩)
  have spec : (getdevice ops).wp ⟨v,path.buffer⟩ (fun _ _ => ¬start.Absent ops v)
      (fun _ _ => start.Absent ops v)
      (fun site _ => (∃ p, site = .vnode p) ∧ ¬start.Absent ops v ∧ ¬start.Standing ops v) := by
    unfold Exec.wp at ends ⊢
    rwa [same]
  refine ⟨run,fun i t ran => ?_,⟨fun failed => ?_,fun absent => ?_⟩,
    fun standing site t ran => (wp_halt spec ran).2.2 standing⟩
  · obtain ⟨p,other⟩ := (wp_halt spec ran).1
    cases other
  · obtain ⟨code,t,ran⟩ := failed
    exact wp_err spec ran
  · rcases ran : getdevice ops ⟨v,path.buffer⟩ with ⟨_ | code | _, t⟩
    · exact absurd absent (wp_ok spec ran)
    · exact ⟨code,t,rfl⟩
    · exact absurd absent (wp_halt spec ran).2.1

section Cases
variable {ops : FsOps} {path : CString} {v : Vnodes} {i : Nat}

theorem plain_of_unmarked {c : UInt8} (mem : c ∈ path.chars) (unmarked : ¬(c = 58 ∨ c = 47)) : Plain c :=
  ⟨fun nul => path.noNul (nul ▸ mem),fun colon => unmarked (Or.inl colon),
    fun slash => unmarked (Or.inr slash)⟩

theorem scan_unmarked (none_ : path.mark = none) :
    scan path.buffer.length 0 ⟨v,path.buffer⟩ = (.ok (-1,-1),⟨v,path.buffer⟩) := by
  have plain : ∀ c ∈ path.chars, Plain c := fun c mem =>
    plain_of_unmarked mem (by simpa using List.findIdx?_eq_none_iff.mp none_ c mem)
  have nul : path.buffer[0 + path.chars.length]? = some 0 := by simp [CString.buffer]
  rw [show path.buffer.length = path.chars.length + 1 by simp [CString.buffer],
    scan_pass (s := ⟨v,path.buffer⟩) (show path.buffer.drop 0 = path.chars ++ [0] from rfl) plain,scan,
    bind_ok (char_run (s := ⟨v,path.buffer⟩) nul)]
  rfl

theorem around_mark (here : path.mark = some i) :
    ∃ c, path.chars[i]? = some c ∧ (c = 58 ∨ c = 47) ∧ (∀ x ∈ path.chars.take i, Plain x) ∧
      path.buffer = path.chars.take i ++ c :: (path.drop (i + 1)).buffer ∧ i < path.chars.length := by
  obtain ⟨lt,marked,before⟩ := List.findIdx?_eq_some_iff_getElem.mp here
  refine ⟨path.chars[i],List.getElem?_eq_getElem lt,by simpa using marked,fun x mem => ?_,?_,lt⟩
  · obtain ⟨j,lt,rfl⟩ := List.mem_take_iff_getElem.mp mem
    exact plain_of_unmarked (List.getElem_mem _) (by simpa using before j (by omega))
  · rw [CString.buffer,CString.buffer,CString.drop,← List.cons_append,List.getElem_cons_drop,
      ← List.append_assoc,List.take_append_drop]

theorem scan_marked (here : path.mark = some i) :
    scan path.buffer.length 0 ⟨v,path.buffer⟩ =
      (.ok (if path.chars[i]? = some 47 then ((i : Int),-1) else (-1,(i : Int))),⟨v,path.buffer⟩) := by
  obtain ⟨c,at_,marked,plain,parts,lt⟩ := around_mark here
  have length : (path.chars.take i).length = i := by simp; omega
  have there : path.buffer[0 + i]? = some c := by
    rw [Nat.zero_add,CString.buffer,List.getElem?_append_left lt,at_]
  rw [show path.buffer.length = (path.chars.take i).length + (path.chars.length - i + 1) by
      rw [length]; simp [CString.buffer]; omega,
    scan_pass (s := ⟨v,path.buffer⟩) (i := 0) parts plain,length,scan,
    bind_ok (char_run (s := ⟨v,path.buffer⟩) there),at_]
  rcases marked with rfl | rfl
  · simp
    rfl
  · simp
    rfl

theorem selects_curdir (run : ∃ slash : Int, slash ≠ 0 ∧
      scan path.buffer.length 0 ⟨v,path.buffer⟩ = (.ok (slash,-1),⟨v,path.buffer⟩)) :
    Selects ops path v .curdir path := by
  obtain ⟨slash,inner,scanned⟩ := run
  refine .of_run ⟨path.buffer,0,?_,rfl,rfl,fun _ _ => rfl⟩
  rw [getdevice,bind_ok (show read _ = (.ok _,_) from rfl),bind_ok scanned]
  simp only [inner,ne_eq,not_false_eq_true,and_true]
  rfl

theorem selects_device (here : path.mark = some (i + 1)) (colon : path.chars[i + 1]? ≠ some 47) :
    Selects ops path v (.device (path.take (i + 1))) (path.drop (i + 2)).subpath := by
  have scanned := scan_marked (v := v) here
  obtain ⟨c,-,-,-,parts,lt⟩ := around_mark here
  have length : (path.chars.take (i + 1)).length = i + 1 := by simp; omega
  have inside : i + 1 < path.buffer.length := by simp [CString.buffer]; omega
  have cut : path.buffer.set (i + 1) 0 = (path.take (i + 1)).buffer ++ (path.drop (i + 2)).buffer := by
    rw [parts,List.set_append_right _ _ (by omega),length,Nat.sub_self]
    simp [CString.buffer,CString.take]
  have rest : (path.buffer.set (i + 1) 0).drop (i + 1 + 1) = (path.drop (i + 2)).buffer := by
    rw [cut,List.drop_left' (by simp [CString.buffer,CString.take]; omega)]
  have enough : (path.drop (i + 2)).chars.length < path.buffer.length := by
    simp only [CString.buffer,CString.drop,List.length_append,List.length_drop,List.length_singleton]
    omega
  obtain ⟨skipped,subpath⟩ := skip_text (s := ⟨v,path.buffer.set (i + 1) 0⟩) rest enough
  refine .of_run ⟨path.buffer.set (i + 1) 0,_,?_,subpath,by simp,fun k other => ?_⟩
  · rw [getdevice,bind_ok (show read _ = (.ok _,_) from rfl),bind_ok scanned,
      if_neg colon]
    have wrote : setChar (i + 1) 0 ⟨v,path.buffer⟩ = (.ok (),⟨v,path.buffer.set (i + 1) 0⟩) := by
      simp only [setChar,bind,read,inside,if_true]
      rfl
    dsimp only
    rw [if_neg (by omega),if_pos (by omega),Int.toNat_natCast,bind_ok wrote,
      bind_ok skipped,bind_ok (string_run (s := ⟨v,path.buffer.set (i + 1) 0⟩) cut)]
    rfl
  · rw [List.getElem?_set_ne]
    rintro rfl
    exact other here

theorem selects_root {start : PathStart} (here : path.mark = some 0)
    (root : getdeviceRoot ops ⟨v,path.buffer⟩ = onVnodes (start.source ops) ⟨v,path.buffer⟩) :
    Selects ops path v start (path.drop 1).subpath := by
  have scanned := scan_marked (v := v) here
  obtain ⟨c,-,-,-,parts,lt⟩ := around_mark here
  have rest : path.buffer.drop (0 + 1) = (path.drop 1).buffer := by rw [parts]; rfl
  have enough : (path.drop 1).chars.length < path.buffer.length := by
    simp only [CString.buffer,CString.drop,List.length_append,List.length_drop,List.length_singleton]
    omega
  have skipped := fun t => skip_text (s := ⟨t,path.buffer⟩) rest enough
  refine .of_run ⟨path.buffer,_,?_,(skipped v).2,rfl,fun _ _ => rfl⟩
  have chosen : getdevice ops ⟨v,path.buffer⟩ = (do
      let startvn ← getdeviceRoot ops
      let index ← skip path.buffer.length 0
      return (startvn,index + 1) : PathM (Nat × Nat)) ⟨v,path.buffer⟩ := by
    rw [getdevice,bind_ok (show read _ = (.ok _,_) from rfl),bind_ok scanned]
    split <;> rfl
  rw [chosen,bind_congr root]
  refine deliver fun w t => ?_
  rw [bind_ok (skipped t).1]
  rfl

theorem selects_ofPath (ops : FsOps) (path : CString) (v : Vnodes) :
    Selects ops path v (PathStart.ofPath path).1 (PathStart.ofPath path).2 := by
  rw [PathStart.ofPath]
  cases here : path.mark with
  | none => exact selects_curdir ⟨-1,by decide,scan_unmarked here⟩
  | some i =>
    obtain ⟨c,at_,marked,-,-,lt⟩ := around_mark here
    have first : i = 0 → path.buffer[0]? = some c := by
      rintro rfl
      rw [CString.buffer,List.getElem?_append_left lt,at_]
    dsimp only
    split
    next slash =>
      obtain rfl : c = 47 := Option.some.inj (at_.symm.trans slash)
      split
      next zero =>
        subst zero
        exact selects_root here (getdeviceRoot_bootfs (s := ⟨v,path.buffer⟩) ops (first rfl))
      next inner =>
        have scanned := scan_marked (v := v) here
        rw [if_pos slash] at scanned
        exact selects_curdir ⟨i,by omega,scanned⟩
    next colon =>
      obtain rfl : c = 58 := marked.resolve_right fun slash => colon (slash ▸ at_)
      split
      next zero =>
        subst zero
        exact selects_root here (getdeviceRoot_curfs (s := ⟨v,path.buffer⟩) ops (first rfl))
      next inner =>
        obtain ⟨j,rfl⟩ := Nat.exists_eq_succ_of_ne_zero inner
        exact selects_device here colon

/-- The prefix of a path decides where its lookup starts. -/
theorem getdevice_selects (ops : FsOps) (path : CString) (v : Vnodes) :
    match path.mark with
    | none => Selects ops path v .curdir path
    | some i =>
      if path.chars[i]? = some 47 then
        if i = 0 then Selects ops path v .bootfs (path.drop 1).subpath
        else Selects ops path v .curdir path
      else
        if i = 0 then Selects ops path v .curfs (path.drop 1).subpath
        else Selects ops path v (.device (path.take i)) (path.drop (i + 1)).subpath := by
  have chosen := selects_ofPath ops path v
  rw [PathStart.ofPath] at chosen
  cases here : path.mark with
  | none =>
    rw [here] at chosen
    exact chosen
  | some i =>
    rw [here] at chosen
    dsimp only at chosen ⊢
    split_ifs at chosen ⊢
    all_goals exact chosen

theorem locate_mark (chars : List UInt8) (n : Nat) :
    Vnodes.locate chars n = match chars.findIdx? fun c => c = 58 ∨ c = 47 with
      | none => (none,none)
      | some i => if chars[i]? = some 47 then (some (n + i),none) else (none,some (n + i)) := by
  induction chars generalizing n with
  | nil => rfl
  | cons c chars ih =>
    rw [Vnodes.locate,List.findIdx?_cons]
    by_cases colon : c = 58
    · simp [colon]
    · by_cases slash : c = 47
      · simp [slash]
      · simp only [colon,slash,if_false,or_self,decide_false,ih,Bool.false_eq_true]
        cases chars.findIdx? fun c => c = 58 ∨ c = 47 with
        | none => rfl
        | some i => simp only [Option.map_some,List.getElem?_cons_succ,Nat.add_assoc,Nat.add_comm 1 i]

theorem stringRoot_bootfs (slash : path.chars[0]? = some 47) :
    Vnodes.getdeviceRoot ops path = PathStart.source ops .bootfs := by
  rw [Vnodes.getdeviceRoot,List.head?_eq_getElem?,if_pos slash]
  rfl

theorem stringRoot_curfs (colon : path.chars[0]? = some 58) :
    Vnodes.getdeviceRoot ops path = PathStart.source ops .curfs := by
  rw [Vnodes.getdeviceRoot,List.head?_eq_getElem?,if_neg (by simp [colon]),decide_eq_true colon]
  rfl

theorem getdevice_refines (ops : FsOps) (path : CString) :
    Vnodes.getdevice ops path = (do
      return (← (PathStart.ofPath path).1.source ops,(PathStart.ofPath path).2)) := by
  have located := locate_mark path.chars 0
  rw [← CString.mark] at located
  rw [Vnodes.getdevice,PathStart.ofPath]
  cases here : path.mark with
  | none =>
    rw [here] at located
    rw [located]
    rfl
  | some i =>
    obtain ⟨c,at_,marked,-⟩ := around_mark here
    simp only [here,Nat.zero_add] at located
    by_cases slash : path.chars[i]? = some 47
    · rw [if_pos slash] at located
      rw [located]
      by_cases zero : i = 0
      · subst zero
        simp only [if_pos slash,if_true]
        rw [← stringRoot_bootfs slash]
        rfl
      · simp [slash,zero]
        rfl
    · rw [if_neg slash] at located
      rw [located]
      by_cases zero : i = 0
      · subst zero
        obtain rfl : c = 58 := marked.resolve_right fun eq => slash (eq ▸ at_)
        simp only [if_neg slash,if_true]
        rw [← stringRoot_curfs at_]
        rfl
      · obtain ⟨j,rfl⟩ := Nat.exists_eq_succ_of_ne_zero zero
        simp only [if_neg slash,if_neg zero]
        rfl

end Cases

end PathCall

end Os161
