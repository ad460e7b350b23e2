import Os161.Printf

/-! `lib/libc/snprintf.c`: the client of `__vprintf` that stores what fits into a buffer, and
`createVehicleLockNameString` of `asst1/stoplight.c`, which measures a string before it prints it. A
buffer is the memory seen from its pointer. -/
namespace Os161
namespace Printf
open Kprintf

structure Snp where
  buf : Nat → UInt8
  buflen : Nat
  bufpos : Nat

def setByte (buf : Nat → UInt8) (i : Nat) (c : UInt8) : Nat → UInt8 := fun j => if j = i then c else buf j

/-- One turn of the loop in `__snprintf_send`. -/
def Snp.store (snp : Snp) (c : UInt8) : Snp :=
  if snp.bufpos < snp.buflen then
    { snp with buf := setByte snp.buf snp.bufpos c, bufpos := snp.bufpos + 1 }
  else snp

def snprintfSend (snp : Snp) (data : List UInt8) : Snp := data.foldl Snp.store snp

/-- `vsnprintf(buf, len, fmt, ap)`: the buffer afterwards, and the result. -/
def vsnprintf (buf : Nat → UInt8) (len : Nat) (fmt : CString) (ap : VaList) :
    Outcome Empty Halt ((Nat → UInt8) × Int) :=
  let buflen := if len = 0 then 0 else len - 1
  match vprintf snprintfSend ⟨buf,buflen,0⟩ fmt ap with
  | .ok (snp,chars) => .ok (if len > 0 then setByte snp.buf snp.bufpos 0 else snp.buf,chars)
  | .err code => .err code
  | .panic site => .panic site

def snprintf (buf : Nat → UInt8) (len : Nat) (fmt : CString) (ap : VaList) :
    Outcome Empty Halt ((Nat → UInt8) × Int) := vsnprintf buf len fmt ap

theorem setByte_eq (buf : Nat → UInt8) (i : Nat) (data : List UInt8) :
    setByte buf i (data.getD 0 0) = overwrite buf i (fun j => data.getD j 0) 1 := by
  funext j
  simp only [setByte,overwrite]
  by_cases here : j = i
  · rw [if_pos here,if_pos (by omega),show j - i = 0 by omega]
  · rw [if_neg here,if_neg (by omega)]

theorem foldl_store (data : List UInt8) (buf : Nat → UInt8) {buflen bufpos : Nat} (room : bufpos ≤ buflen) :
    data.foldl Snp.store ⟨buf,buflen,bufpos⟩ =
      ⟨overwrite buf bufpos (fun i => data.getD i 0) (min data.length (buflen - bufpos)),buflen,
        bufpos + min data.length (buflen - bufpos)⟩ := by
  induction data generalizing buf bufpos with
  | nil => simp
  | cons c rest ih =>
    rw [List.foldl_cons,Snp.store]
    split
    · rename_i more
      simp only at more ⊢
      have front : setByte buf bufpos c = overwrite buf bufpos (fun j => (c :: rest).getD j 0) 1 :=
        setByte_eq buf bufpos (c :: rest)
      have back : (fun i => rest.getD i 0) = fun i => (c :: rest).getD (1 + i) 0 := by
        funext i
        rw [Nat.add_comm,List.getD_cons_succ]
      have amount : min (rest.length + 1) (buflen - bufpos) = 1 + min rest.length (buflen - (bufpos + 1)) := by
        omega
      have next : bufpos + 1 ≤ buflen := more
      rw [ih _ next,front,back,overwrite_append buf bufpos (fun j => (c :: rest).getD j 0),
        List.length_cons,amount,Nat.add_assoc]
    · rename_i full
      have none_ : buflen - bufpos = 0 := Nat.sub_eq_zero_of_le (Nat.le_of_not_lt full)
      rw [ih buf room,none_,Nat.min_zero,Nat.min_zero,overwrite_none,overwrite_none]

theorem vsnprintf_spec (buf : Nat → UInt8) (len : Nat) (fmt : CString) (ap : VaList) :
    vsnprintf buf len fmt ap =
      .ok (if len > 0 then
          setByte (overwrite buf 0 (fun i => (text fmt ap).getD i 0) (min (text fmt ap).length (len - 1)))
            (min (text fmt ap).length (len - 1)) 0
        else buf,i32 (text fmt ap).length) := by
  have buflen : (if len = 0 then 0 else len - 1) = len - 1 := by
    split <;> omega
  obtain ⟨pieces,flat,ran⟩ := vprintf_spec snprintfSend ⟨buf,len - 1,0⟩ fmt ap
  rw [← text_eq] at flat
  have client : pieces.foldl snprintfSend ⟨buf,len - 1,0⟩ =
      (text fmt ap).foldl Snp.store ⟨buf,len - 1,0⟩ := by
    rw [← flat,List.foldl_flatten]
    rfl
  have count : (Kprintf.vprintf fmt ap).2 = i32 (text fmt ap).length := by
    rw [vprintf_count,text_eq]
  rw [vsnprintf]
  simp only [buflen,ran,client,foldl_store _ _ (Nat.zero_le _),count,Nat.sub_zero,Nat.zero_add]
  rcases Nat.eq_zero_or_pos len with rfl | positive
  · simp
  · simp only [positive,if_true]

def HoldsString (buf : Nat → UInt8) (s : List UInt8) : Prop :=
  (∀ i (h : i < s.length), buf i = s[i]) ∧ buf s.length = 0

/-- The buffer after `s` has been printed into `len` bytes. -/
structure Truncated (s : List UInt8) (buf : Nat → UInt8) (len : Nat) (after : Nat → UInt8) : Prop where
  untouched : len = 0 → after = buf
  holds : 0 < len → HoldsString after (s.take (len - 1))
  beyond : ∀ i, min s.length (len - 1) < i → after i = buf i

section Truncate
variable (buf : Nat → UInt8) (fmt : CString) (ap : VaList)

theorem snprintf_truncated (len : Nat) (short : (text fmt ap).length < 2^31) :
    ∃ after, snprintf buf len fmt ap = .ok (after,(text fmt ap).length) ∧
      Truncated (text fmt ap) buf len after := by
  rw [snprintf,vsnprintf_spec,i32_of_bounds (by omega) (by omega)]
  refine ⟨_,rfl,?_⟩
  rcases Nat.eq_zero_or_pos len with rfl | positive
  · exact ⟨fun _ => rfl,fun positive => absurd positive (by decide),fun _ _ => rfl⟩
  rw [if_pos positive]
  refine ⟨fun zero => by omega,fun _ => ⟨fun i less => ?_,?_⟩,fun i beyond => ?_⟩
  · rw [List.length_take] at less
    have inText : i < (text fmt ap).length := by omega
    simp only [setByte,overwrite]
    rw [if_neg (by omega),if_pos (by omega),List.getElem_take,Nat.sub_zero,
      List.getD_eq_getElem _ _ inText]
  · rw [List.length_take,Nat.min_comm]
    simp [setByte]
  · simp only [setByte,overwrite]
    rw [if_neg (by omega),if_neg (by omega)]

theorem snprintf_whole (short : (text fmt ap).length < 2^31) :
    ∃ after, snprintf buf ((text fmt ap).length + 1) fmt ap = .ok (after,(text fmt ap).length) ∧
      HoldsString after (text fmt ap) := by
  obtain ⟨after,ran,cut⟩ := snprintf_truncated buf fmt ap ((text fmt ap).length + 1) short
  have holds := cut.holds (Nat.succ_pos _)
  rw [Nat.add_sub_cancel,List.take_length] at holds
  exact ⟨after,ran,holds⟩

theorem snprintf_measures (short : (text fmt ap).length < 2^31) :
    snprintf buf 0 fmt ap = .ok (buf,(text fmt ap).length) := by
  obtain ⟨after,ran,cut⟩ := snprintf_truncated buf fmt ap 0 short
  rw [ran,cut.untouched rfl]

end Truncate

/-! `createVehicleLockNameString` -/

def lockPre : CString := literal "Vehicle Lock Number: "

/-- The arguments behind `"%s%lu"`: a pointer to the literal, and the number. -/
def lockArgs (pre lockNumber : UInt32) : VaList where
  words i := if i = 0 then pre else lockNumber
  string _ := lockPre

/-- `createVehicleLockNameString(lockNumber)`, with the memory that `kmalloc` returns; `pre` is the
address of the literal. -/
def createVehicleLockNameString (kmalloc : Nat → Option (Nat → UInt8)) (pre lockNumber : UInt32) :
    Outcome Empty Halt (Option (Nat → UInt8)) :=
  match snprintf (fun _ => 0) 0 (literal "%s%lu") (lockArgs pre lockNumber) with
  | .ok (_,measured) =>
    let totalLength := i32 (measured + 1)
    match kmalloc (u32 totalLength) with
    | none => .ok none
    | some fullString =>
      match snprintf fullString (u32 totalLength) (literal "%s%lu") (lockArgs pre lockNumber) with
      | .ok (fullString,written) =>
        if written < 0 ∨ written ≥ totalLength then .ok none else .ok (some fullString)
      | .err code => .err code
      | .panic site => .panic site
  | .err code => .err code
  | .panic site => .panic site

def lockName (lockNumber : UInt32) : List UInt8 := lockPre.chars ++ digitText 10 lockNumber.toNat

theorem printstuff_plain {pf : Pf} (none_ : pf.spacing = 0) (stuff : List UInt8) :
    (pf.printstuff [] [] stuff).sent = pf.sent ++ stuff ∧ (pf.printstuff [] [] stuff).ap = pf.ap := by
  have pad (n : Nat) : ((0 : Int) - n).toNat = 0 := by omega
  simp only [Pf.printstuff,none_,pad,Pf.fill,Pf.print,List.append_nil,ite_self,and_self]

theorem text_lockName {pre : UInt32} (nonNull : pre ≠ 0) (lockNumber : UInt32) :
    text (literal "%s%lu") (lockArgs pre lockNumber) = lockName lockNumber := by
  have chars : (literal "%s%lu").chars = [37,115,37,108,117] := by decide
  have string (pf : Pf) : (pf.endfield.send 37).send 115 = ({ pf.endfield with
      inPct := true, ap := pf.ap.arg.2 }.printstuff [] []
        (if pf.ap.words 0 = 0 then bytes "(null)" else (pf.ap.string (pf.ap.words 0)).chars)).endfield := rfl
  have number (pf : Pf) : (((pf.endfield.send 37).send 108).send 117).sent = ({ pf.endfield with
      inPct := true, ap := pf.ap.arg.2, size := .longsz, num := pf.ap.words 0, base := 10 }.printstuff [] []
        (digitText 10 (pf.ap.words 0).toNat)).sent := rfl
  rw [text_eq]
  show ((literal "%s%lu").chars.foldl (fun pf ch => pf.send ch) (start (lockArgs pre lockNumber))).sent = _
  rw [chars]
  simp only [List.foldl,start]
  rw [string,number,(printstuff_plain rfl _).1,(printstuff_plain rfl _).2,lockName]
  show (Pf.printstuff [] [] _ _).sent ++ _ = _
  rw [(printstuff_plain rfl _).1]
  exact congrArg (· ++ digitText 10 lockNumber.toNat) (if_neg nonNull)

theorem lockName_length (lockNumber : UInt32) : (lockName lockNumber).length ≤ 32 := by
  have front : lockPre.chars.length = 21 := by decide
  have number : (digitText 10 lockNumber.toNat).length ≤ 11 := digitText_fits (by decide) lockNumber
  rw [lockName,List.length_append]
  omega

theorem createVehicleLockNameString_spec {kmalloc : Nat → Option (Nat → UInt8)} {pre : UInt32}
    {fullString : Nat → UInt8} (nonNull : pre ≠ 0) (lockNumber : UInt32)
    (memory : kmalloc ((lockName lockNumber).length + 1) = some fullString) :
    ∃ whole, createVehicleLockNameString kmalloc pre lockNumber = .ok (some whole) ∧
      HoldsString whole (lockName lockNumber) := by
  have bound := lockName_length lockNumber
  have same := text_lockName nonNull lockNumber
  have short : (text (literal "%s%lu") (lockArgs pre lockNumber)).length < 2^31 := by
    rw [same]
    omega
  have measured := snprintf_measures (fun _ => 0) (literal "%s%lu") (lockArgs pre lockNumber) short
  obtain ⟨whole,printed,holds⟩ := snprintf_whole fullString (literal "%s%lu") (lockArgs pre lockNumber) short
  rw [same] at measured printed holds
  have total : i32 ((lockName lockNumber).length + 1) = ((lockName lockNumber).length + 1 : Nat) :=
    i32_of_bounds (by omega) (by omega)
  have size : u32 ((lockName lockNumber).length + 1 : Nat) = (lockName lockNumber).length + 1 :=
    u32_natCast (by omega)
  refine ⟨whole,?_,holds⟩
  unfold createVehicleLockNameString
  rw [measured]
  dsimp only
  rw [total,size,memory]
  dsimp only
  rw [printed]
  exact if_neg (by omega)

/-- What is printed into a buffer is cut to it, and a buffer that was measured holds all of it. -/
theorem snprintf_truncates :
    (∀ fmt ap, (text fmt ap).length < 2^31 →
      (∀ buf len, ∃ after, snprintf buf len fmt ap = .ok (after,(text fmt ap).length) ∧
        Truncated (text fmt ap) buf len after) ∧
      ∀ null buf, ∃ measured after, snprintf null 0 fmt ap = .ok (null,measured) ∧
        snprintf buf (measured + 1).toNat fmt ap = .ok (after,measured) ∧ HoldsString after (text fmt ap)) ∧
    ∀ kmalloc pre lockNumber fullString, pre ≠ 0 →
      kmalloc ((lockName lockNumber).length + 1) = some fullString →
      ∃ whole, createVehicleLockNameString kmalloc pre lockNumber = .ok (some whole) ∧
        HoldsString whole (lockName lockNumber) := by
  refine ⟨fun fmt ap short => ⟨fun buf len => snprintf_truncated buf fmt ap len short,fun null buf => ?_⟩,
    fun kmalloc pre lockNumber fullString nonNull memory =>
      createVehicleLockNameString_spec nonNull lockNumber memory⟩
  obtain ⟨after,printed,holds⟩ := snprintf_whole buf fmt ap short
  exact ⟨_,after,snprintf_measures null fmt ap short,printed,holds⟩

def oneArg (word : UInt32) : VaList := { noArgs with words := fun _ => word }

/-- `%d` of -12 in 3 bytes, and the name of lock 5. -/
theorem snprintf_truncates_three :
    (∃ after, snprintf (fun _ => 255) 3 (literal "%d") (oneArg (-12)) = .ok (after,3) ∧
      HoldsString after (bytes "-1") ∧ after 3 = 255) ∧
    ∃ whole, createVehicleLockNameString (fun _ => some fun _ => 255) 4 5 = .ok (some whole) ∧
      HoldsString whole (bytes "Vehicle Lock Number: 5") := by
  have printed : text (literal "%d") (oneArg (-12)) = bytes "-12" := by
    rw [text_eq]
    decide +kernel
  have length_ : (bytes "-12").length = 3 := by decide
  have front : (bytes "-12").take 2 = bytes "-1" := by decide
  have name : lockName 5 = bytes "Vehicle Lock Number: 5" := by decide +kernel
  refine ⟨?_,?_⟩
  · obtain ⟨after,ran,cut⟩ := (snprintf_truncates.1 (literal "%d") (oneArg (-12))
      (by rw [printed,length_]; decide)).1 (fun _ => 255) 3
    have holds := cut.holds (by decide)
    have beyond := cut.beyond 3
    rw [printed,length_] at ran beyond
    rw [printed,front] at holds
    exact ⟨after,ran,holds,beyond (by decide)⟩
  · rw [← name]
    exact snprintf_truncates.2 (fun _ => some fun _ => 255) 4 5 (fun _ => 255) (by decide) rfl

end Printf
end Os161
