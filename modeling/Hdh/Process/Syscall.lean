import Hdh.Library.Units
import Hdh.Process.Loader
import Mathlib.Data.BitVec
import Mathlib.Tactic.Ring

/-!
# The system call of the memory

`SYSCALL 17` reaches `__sys_memmap`, which passes its arguments on to the memory module.
`sys_mem.c` includes `os-mm.h` before the configuration has defined `MM64`, and all others
behind it.  So `addr_t` has 32 bits in `sys_mem.c` alone, and the fields of `struct pcb_t`
behind the registers are looked for in the registers.

Main results:

- Theorem `view_eq`: what each source file sees of the types.
- Theorem `libsyscall_receives_iff`: the arguments that reach an operation as they are.
- Theorem `operate_receives`: with the types of the other files, all addresses and sizes
  would.
-/

namespace Hdh
namespace Process

open CUnit

/-! ## Headers and source files -/

/-- The headers in `include/`. -/
inductive Header
  | osCfg
  | osMm
  | common
  | syscall
  | libmem
  | queue
  | sched
  | loader
  | timer
  | mem
  | cpu
  | mm
  | mm64
  | bitops
deriving DecidableEq

/-- The macros that decide about types: the guards of the headers, the configuration, and
the two types. -/
inductive Macro
  | oscfgH
  | osmmH
  | commonH
  | queueH
  | loaderH
  | timerH
  | memH
  | cpuH
  | mmH
  | mm64H
  | mlqSched
  | mmPaging
  | mm64
  | addrType
  | argType
deriving DecidableEq

/-- `addr_t` and `arg_t`. -/
inductive TypeName
  | addrT
  | argT
deriving DecidableEq

/-- A file; a macro that stands for a type has the size of the type as its value. -/
abbrev SourceText := Text Header Macro TypeName Nat

/-- The headers.  `mm.h` asks for its guard and does not define it. -/
def Header.text : Header → SourceText
  | .osCfg =>
      guarded .oscfgH 0
        (.define .mlqSched 0 (.define .mmPaging 0 (.define .mm64 0 .eof)))
  | .osMm =>
      guarded .osmmH 0
        (.define .mmPaging 0
          (.ifdef .mm64 (.define .addrType 8 .eof) (.define .addrType 4 .eof)
            (.typedef .addrT .addrType .eof)))
  | .common =>
      guarded .commonH 0
        (.ifdef .oscfgH .eof (.incl .osCfg .eof)
          (.ifdef .osmmH .eof (.incl .osMm .eof)
            (.ifdef .mm64 (.define .argType 8 .eof) (.define .argType 4 .eof)
              (.typedef .argT .argType .eof))))
  | .syscall => .incl .common .eof
  | .libmem => .incl .common .eof
  | .queue => guarded .queueH 0 (.incl .common .eof)
  | .sched =>
      guarded .queueH 0
        (.incl .common (.ifdef .mlqSched .eof (.define .mlqSched 0 .eof) .eof))
  | .loader => guarded .loaderH 0 (.incl .common .eof)
  | .timer => guarded .timerH 0 .eof
  | .mem => guarded .memH 0 (.incl .common .eof)
  | .cpu => guarded .cpuH 0 (.incl .common .eof)
  | .mm => .ifdef .mmH .eof (.incl .common (.incl .bitops .eof)) .eof
  | .mm64 => guarded .mm64H 0 (.incl .mm .eof)
  | .bitops => .eof

/-- The source files of `os`. -/
inductive Source
  | cpu
  | mem
  | loader
  | queue
  | os
  | sched
  | timer
  | mmVm
  | mm64
  | mm
  | mmMemphy
  | libstd
  | libmem
  | syscall
  | sysMem
  | sysListsyscall
deriving DecidableEq

/-- What they include. -/
def Source.text : Source → SourceText
  | .cpu => .incl .cpu (.incl .mem (.incl .mm (.incl .syscall (.incl .libmem .eof))))
  | .mem => .incl .mem .eof
  | .loader => .incl .loader .eof
  | .queue => .incl .queue .eof
  | .os => .incl .cpu (.incl .timer (.incl .sched (.incl .loader (.incl .mm .eof))))
  | .sched => .incl .queue (.incl .sched .eof)
  | .timer => .incl .timer .eof
  | .mmVm => .incl .mm (.ifdef .mm64 (.incl .mm64 .eof) .eof .eof)
  | .mm64 => .incl .mm64 .eof
  | .mm => .incl .mm .eof
  | .mmMemphy => .incl .mm .eof
  | .libstd => .incl .common (.incl .syscall .eof)
  | .libmem => .incl .mm (.incl .mm64 (.incl .syscall (.incl .libmem .eof)))
  | .syscall => .incl .syscall (.incl .common .eof)
  | .sysMem =>
      .incl .osMm (.incl .syscall (.incl .libmem (.incl .queue
        (.ifdef .mm64 (.incl .mm64 .eof) (.incl .mm .eof) .eof))))
  | .sysListsyscall => .incl .syscall .eof

/-- The sizes of `addr_t` and `arg_t`, and the conditions on the fields of structures. -/
structure View where
  addrT : Nat
  argT : Nat
  mlqSched : Bool
  mmPaging : Bool
deriving DecidableEq

/-- What a source file sees.  A type that is not declared has no size. -/
def Source.view (src : Source) : View :=
  match preprocess Header.text 8 src.text .nothing with
  | none => ⟨0, 0, false, false⟩
  | some s =>
      { addrT := (s.types .addrT).getD 0
        argT := (s.types .argT).getD 0
        mlqSched := (s.macros .mlqSched).isSome
        mmPaging := (s.macros .mmPaging).isSome }

/-- All files that know the type have the same `addr_t`, except `sys_mem.c`. -/
theorem view_eq (src : Source) (h : src ≠ .timer) :
    src.view = ⟨if src = .sysMem then 4 else 8, 8, true, true⟩ := by
  cases src with
  | timer => exact absurd rfl h
  | _ => decide +kernel

/-- In `sys_mem.c` an address has 32 bits. -/
theorem sysMem_view : Source.sysMem.view = ⟨4, 8, true, true⟩ :=
  (view_eq .sysMem (by decide)).trans rfl

/-- Only `os-mm.h` declares `addr_t`, behind its guard. -/
theorem header_guards (h : Header) : h.text.Guards .osmmH .addrT := by
  cases h <;> simp [Header.text, guarded, Text.Guards]

/-- The first header decides: in a file that begins with a header that declares `addr_t`,
the type stays what it is there, whatever follows. -/
theorem addr_of_first {n : Nat} {first : Header} {rest : SourceText}
    {s₁ s : Seen Macro TypeName Nat} (hrest : rest.Guards .osmmH .addrT)
    (hfirst : preprocess Header.text n first.text .nothing = some s₁)
    (hguard : (s₁.macros .osmmH).isSome)
    (h : preprocess Header.text (n + 1) (.incl first rest) .nothing = some s) :
    s.types .addrT = s₁.types .addrT := by
  rw [preprocess, Text.exec] at h
  simp only [hfirst] at h
  exact (preprocess_keeps (n := n + 1) header_guards hrest h hguard).2

/-- A file that begins with `os-mm.h` has an `addr_t` of 32 bits. -/
theorem addr_osMm_first {n : Nat} {rest : SourceText} (hrest : rest.Guards .osmmH .addrT)
    {s : Seen Macro TypeName Nat}
    (h : preprocess Header.text (n + 1) (.incl .osMm rest) .nothing = some s) :
    s.types .addrT = some 4 := by
  cases n with
  | zero => exact addr_of_first hrest rfl rfl h
  | succ n => exact addr_of_first hrest rfl rfl h

/-- A file that begins with `common.h` has an `addr_t` of 64 bits. -/
theorem addr_common_first {n : Nat} {rest : SourceText} (hrest : rest.Guards .osmmH .addrT)
    {s : Seen Macro TypeName Nat}
    (h : preprocess Header.text (n + 3) (.incl .common rest) .nothing = some s) :
    s.types .addrT = some 8 := by
  cases n with
  | zero => exact addr_of_first hrest rfl rfl h
  | succ n => exact addr_of_first hrest rfl rfl h

/-! ## Structures -/

/-- An address of the host. -/
abbrev Ptr := BitVec 64

/-- The fields of `struct pcb_t`. -/
inductive PcbField
  | pid
  | priority
  | path
  | code
  | regs
  | pc
  | prio
  | krnl
  | pageTable
  | bp
deriving DecidableEq

/-- The fields of `struct krnl_t`. -/
inductive KrnlField
  | readyQueue
  | runningList
  | mlqReadyQueue
  | mm
  | mram
  | mswp
  | activeMswp
  | activeMswpId
deriving DecidableEq

/-- The fields of `struct queue_t`. -/
inductive QueueField
  | proc
  | size
deriving DecidableEq

/-- A number of 32 bits. -/
def uint32 : CType := .scalar 4

/-- A pointer. -/
def pointer : CType := .scalar 8

/-- `struct pcb_t`, as a file sees it. -/
def pcbFields (v : View) : List (PcbField × CType) :=
  [(.pid, uint32), (.priority, uint32), (.path, .array (.scalar 1) 100), (.code, pointer),
    (.regs, .array (.scalar v.addrT) 10), (.pc, uint32)] ++
  (if v.mlqSched then [(.prio, uint32)] else []) ++
  [(.krnl, pointer), (.pageTable, pointer), (.bp, uint32)]

/-- `struct krnl_t`, as a file sees it. -/
def krnlFields (v : View) : List (KrnlField × CType) :=
  [(.readyQueue, pointer), (.runningList, pointer)] ++
  (if v.mlqSched then [(.mlqReadyQueue, pointer)] else []) ++
  (if v.mmPaging then
    [(.mm, pointer), (.mram, pointer), (.mswp, pointer), (.activeMswp, pointer),
      (.activeMswpId, uint32)]
  else [])

/-- `struct queue_t`. -/
def queueFields : List (QueueField × CType) :=
  [(.proc, .array pointer 50), (.size, uint32)]

/-- The address of a field of a process. -/
def View.pcbField (v : View) (p : Ptr) (field : PcbField) : Ptr :=
  p + BitVec.ofNat 64 (offsetOf (pcbFields v) field)

/-- The address of a field of the kernel. -/
def View.krnlField (v : View) (krnl : Ptr) (field : KrnlField) : Ptr :=
  krnl + BitVec.ofNat 64 (offsetOf (krnlFields v) field)

/-- A value that is passed on as an `addr_t`, in a register of 64 bits. -/
def View.asAddr (v : View) (x : Arg) : BitVec 64 :=
  (x.setWidth (8 * v.addrT)).setWidth 64

/-! ## The calling process -/

/-- The search through the cells of a queue; `none` is a fault, `some none` when the
process is not there. -/
def searchCells (v : View) (mem : Bytes) (pid : BitVec 32) : List Ptr → Option (Option Ptr)
  | [] => some none
  | cell :: cells =>
      match loadPtr mem cell with
      | none => none
      | some p =>
          if p = 0 then searchCells v mem pid cells
          else
            match loadNum mem 4 (v.pcbField p .pid) with
            | none => none
            | some n => if n = pid.toNat then some (some p) else searchCells v mem pid cells

/-- The search through a queue. -/
def searchQueue (v : View) (mem : Bytes) (pid : BitVec 32) (q : Ptr) :
    Option (Option Ptr) :=
  match loadNum mem 4 (q + BitVec.ofNat 64 (offsetOf queueFields .size)) with
  | none => none
  | some size =>
      searchCells v mem pid ((List.range (BitVec.ofNat 32 size).toInt.toNat).map fun i =>
        q + BitVec.ofNat 64 (offsetOf queueFields .proc + 8 * i))

/-- The search goes on when the process has not been found. -/
def orSearch (first next : Option (Option Ptr)) : Option (Option Ptr) :=
  match first with
  | some none => next
  | found => found

/-- The search through a queue that a field of the kernel points to, if there is one. -/
def searchField (v : View) (mem : Bytes) (krnl : Ptr) (field : KrnlField)
    (search : Ptr → Option (Option Ptr)) : Option (Option Ptr) :=
  match loadPtr mem (v.krnlField krnl field) with
  | none => none
  | some q => if q = 0 then some none else search q

/-- The search for the calling process. -/
def findCaller (v : View) (mem : Bytes) (krnl : Ptr) (pid : BitVec 32) :
    Option (Option Ptr) :=
  orSearch (searchField v mem krnl .runningList (searchQueue v mem pid))
    (orSearch (searchField v mem krnl .readyQueue (searchQueue v mem pid))
      (if v.mlqSched then
        searchField v mem krnl .mlqReadyQueue fun q =>
          ((List.range 140).map fun pr =>
            searchQueue v mem pid
              (q + BitVec.ofNat 64 (structSize queueFields * pr))).foldr orSearch (some none)
      else some none))

/-! ## The operations -/

/-- `SYSMEM_MAP_OP`, `SYSMEM_INC_OP`, `SYSMEM_SWP_OP`, `SYSMEM_IO_READ` and
`SYSMEM_IO_WRITE`. -/
inductive MemOp
  | map
  | inc
  | swp
  | ioRead
  | ioWrite
deriving DecidableEq

/-- The code of an operation in the first argument, as an `int`. -/
def memOp (a1 : Arg) : Option MemOp :=
  match (a1.setWidth 32 : BitVec 32).toInt with
  | 1 => some .map
  | 2 => some .inc
  | 3 => some .swp
  | 4 => some .ioRead
  | 5 => some .ioWrite
  | _ => none

/-- The arguments of `struct sc_regs` that are assigned. -/
structure ScRegs where
  a1 : Arg
  a2 : Arg
  a3 : Arg
deriving DecidableEq

/-- The calls of `__sys_memmap`, with what the callee receives. -/
inductive Operation
  | vmapPgdMemset (caller : Ptr) (addr : BitVec 64) (pgnum : Int)
  | incVmaLimit (caller : Ptr) (vmaid : Int) (incSz : BitVec 64)
  | mmSwapPage (caller : Ptr) (vicfpn swpfpn : BitVec 64)
  | memphyRead (mp : Ptr) (addr : BitVec 64)
  | memphyWrite (mp : Ptr) (addr : BitVec 64) (data : BitVec 8)
deriving DecidableEq

/-- `caller->krnl->mram`. -/
def callerMram (v : View) (mem : Bytes) (caller : Ptr) : Option Ptr :=
  match loadPtr mem (v.pcbField caller .krnl) with
  | none => none
  | some krnl => loadPtr mem (v.krnlField krnl .mram)

/-- The `switch` of `__sys_memmap`: the call, and the registers behind it.  `value` is the
byte that `MEMPHY_read` leaves in the variable. -/
def operate (v : View) (mem : Bytes) (caller : Ptr) (regs : ScRegs) (value : BitVec 8) :
    Option (Option Operation × ScRegs) :=
  match memOp regs.a1 with
  | some .map =>
      some (some (.vmapPgdMemset caller (v.asAddr regs.a2)
        (regs.a3.setWidth 32 : BitVec 32).toInt), regs)
  | some .inc =>
      some (some (.incVmaLimit caller (regs.a2.setWidth 32 : BitVec 32).toInt
        (v.asAddr regs.a3)), regs)
  | some .swp =>
      some (some (.mmSwapPage caller (v.asAddr regs.a2) (v.asAddr regs.a3)), regs)
  | some .ioRead =>
      match callerMram v mem caller with
      | none => none
      | some mp =>
          some (some (.memphyRead mp (v.asAddr regs.a2)),
            { regs with a3 := value.signExtend 64 })
  | some .ioWrite =>
      match callerMram v mem caller with
      | none => none
      | some mp =>
          some (some (.memphyWrite mp (v.asAddr regs.a2) (regs.a3.setWidth 8)), regs)
  | none => some (none, regs)

/-- `__sys_memmap`: the return code, the call and the registers behind it. -/
def sysMemmap (v : View) (mem : Bytes) (krnl : Ptr) (pid : BitVec 32) (regs : ScRegs)
    (value : BitVec 8) : Option (Int × Option Operation × ScRegs) :=
  if krnl = 0 then some (-1, none, regs)
  else
    match findCaller v mem krnl pid with
    | none => none
    | some none => some (-1, none, regs)
    | some (some caller) => (operate v mem caller regs value).map fun r => (0, r)

/-- `syscall`, with the table of system calls. -/
def syscall (v : View) (mem : Bytes) (krnl : Ptr) (pid nr : BitVec 32) (regs : ScRegs)
    (value : BitVec 8) : Option (Int × Option Operation × ScRegs) :=
  if nr = 0 then some (0, none, regs)
  else if nr = 17 then sysMemmap v mem krnl pid regs value
  else some (0, none, regs)

/-- `libsyscall`: the return code and the call. -/
def libsyscall (mem : Bytes) (caller : Ptr) (syscallIdx : BitVec 32) (a1 a2 a3 : Arg)
    (value : BitVec 8) : Option (Int × Option Operation) :=
  let v := Source.libstd.view
  match loadPtr mem (v.pcbField caller .krnl), loadNum mem 4 (v.pcbField caller .pid) with
  | some krnl, some pid =>
      (syscall Source.sysMem.view mem krnl (BitVec.ofNat 32 pid) syscallIdx ⟨a1, a2, a3⟩
        value).map fun r => (r.1, r.2.1)
  | _, _ => none

/-! ## What an operation receives -/

/-- The types of all files but `sys_mem.c`. -/
def hostView : View := Source.mmVm.view

/-- Where the process is created, an address has 64 bits. -/
theorem hostView_eq : hostView = ⟨8, 8, true, true⟩ :=
  (view_eq .mmVm (by decide)).trans rfl

/-- So it has in `libstd.c`. -/
theorem libstd_view : Source.libstd.view = hostView :=
  (view_eq .libstd (by decide)).trans hostView_eq.symm

/-- A process in memory: its identifier, its registers and the address of its kernel. -/
structure HostPcb where
  pid : BitVec 32
  regs : Fin 10 → BitVec 64
  krnl : Ptr
  krnl_ne : krnl ≠ 0

/-- The process is stored at an address, as the other files lay it out, and its kernel
has the device `mram`. -/
structure PcbAt (mem : Bytes) (p : Ptr) (pcb : HostPcb) (mram : Ptr) : Prop where
  pid : loadNum mem 4 (hostView.pcbField p .pid) = some pcb.pid.toNat
  regs : ∀ i : Fin 10,
    loadPtr mem (hostView.pcbField p .regs + BitVec.ofNat 64 (hostView.addrT * i)) =
      some (pcb.regs i)
  krnl : loadPtr mem (hostView.pcbField p .krnl) = some pcb.krnl
  mram : loadPtr mem (hostView.krnlField pcb.krnl .mram) = some mram

/-- The operation receives the addresses and sizes as they are given, and acts on
`mram`. -/
def Operation.Receives (a2 a3 : Arg) (mram : Ptr) : Operation → Prop
  | .vmapPgdMemset _ addr pgnum => addr = a2 ∧ pgnum = a3.toNat
  | .incVmaLimit _ _ incSz => incSz = a3
  | .mmSwapPage _ vicfpn swpfpn => vicfpn = a2 ∧ swpfpn = a3
  | .memphyRead mp addr => mp = mram ∧ addr = a2
  | .memphyWrite mp addr _ => mp = mram ∧ addr = a2

/-- The call does not fault, and its operation, if there is one, receives what is
given. -/
def Passes (a2 a3 : Arg) (mram : Ptr) (call : Option (Option Operation)) : Prop :=
  ∃ op, call = some op ∧ ∀ o, op = some o → o.Receives a2 a3 mram

/-- The values that fit into the types of `sys_mem.c`; and the device that is found through
the register that lies where `sys_mem.c` looks for the kernel. -/
def Fits (mem : Bytes) (regs : Fin 10 → BitVec 64) (mram : Ptr) (a1 a2 a3 : Arg) : Prop :=
  match memOp a1 with
  | some .map => a2.toNat < 2 ^ 32 ∧ a3.toNat < 2 ^ 31
  | some .inc => a3.toNat < 2 ^ 32
  | some .swp => a2.toNat < 2 ^ 32 ∧ a3.toNat < 2 ^ 32
  | some .ioRead | some .ioWrite =>
      loadPtr mem (regs 6 + 32) = some mram ∧ a2.toNat < 2 ^ 32
  | none => True

/-- What 32 bits keep of a value. -/
theorem asAddr_sysMem_iff (x : Arg) : Source.sysMem.view.asAddr x = x ↔ x.toNat < 2 ^ 32 := by
  rw [sysMem_view, View.asAddr, BitVec.toNat_eq]
  simp only [BitVec.toNat_setWidth]
  omega

/-- There an argument is passed on as it is. -/
theorem asAddr_host (x : Arg) : hostView.asAddr x = x := by
  rw [hostView_eq]
  exact (BitVec.setWidth_eq (x.setWidth 64)).trans (BitVec.setWidth_eq x)

/-- What an `int` keeps of a number of pages. -/
theorem toInt_pgnum_iff (x : Arg) :
    (x.setWidth 32 : BitVec 32).toInt = x.toNat ↔ x.toNat < 2 ^ 31 := by
  have hlt := x.isLt
  rw [BitVec.toInt_eq_toNat_cond, BitVec.toNat_setWidth]
  split <;> omega

/-- `sys_mem.c` finds the seventh register in the place of the kernel. -/
theorem callerMram_sysMem {mem : Bytes} {p mram : Ptr} {pcb : HostPcb}
    (h : PcbAt mem p pcb mram) :
    callerMram Source.sysMem.view mem p = loadPtr mem (pcb.regs 6 + 32) := by
  have hplace : Source.sysMem.view.pcbField p .krnl =
      hostView.pcbField p .regs + BitVec.ofNat 64 (hostView.addrT * (6 : Fin 10)) := by
    rw [sysMem_view, hostView_eq]
    exact (BitVec.add_assoc p 120#64 48#64).symm
  rw [callerMram, hplace, h.regs 6, sysMem_view]
  rfl

/-- There the fields of the process are where they have been stored. -/
theorem callerMram_host {mem : Bytes} {p mram : Ptr} {pcb : HostPcb}
    (h : PcbAt mem p pcb mram) : callerMram hostView mem p = some mram := by
  rw [callerMram, h.krnl]
  exact h.mram

/-- When an operation receives what is given, whatever the sizes of the types are. -/
theorem passes_operate_iff (v : View) (mem : Bytes) (p mram : Ptr) (a1 a2 a3 : Arg)
    (value : BitVec 8) :
    Passes a2 a3 mram ((operate v mem p ⟨a1, a2, a3⟩ value).map Prod.fst) ↔
      match memOp a1 with
      | some .map => v.asAddr a2 = a2 ∧ (a3.setWidth 32 : BitVec 32).toInt = a3.toNat
      | some .inc => v.asAddr a3 = a3
      | some .swp => v.asAddr a2 = a2 ∧ v.asAddr a3 = a3
      | some .ioRead | some .ioWrite => callerMram v mem p = some mram ∧ v.asAddr a2 = a2
      | none => True := by
  unfold operate
  cases hop : memOp a1 with
  | none => simp [Passes]
  | some op =>
      cases op with
      | map | inc | swp => simp [Passes, Operation.Receives]
      | ioRead | ioWrite => cases callerMram v mem p <;> simp [Passes, Operation.Receives]

/-- With the types of the other files, an operation would receive all addresses and sizes
as they are given, and a number of pages that is an `int`. -/
theorem operate_receives {mem : Bytes} {p mram : Ptr} {pcb : HostPcb}
    (h : PcbAt mem p pcb mram) {a1 a2 a3 : Arg}
    (hpages : memOp a1 = some .map → a3.toNat < 2 ^ 31) (value : BitVec 8) :
    Passes a2 a3 mram ((operate hostView mem p ⟨a1, a2, a3⟩ value).map Prod.fst) := by
  rw [passes_operate_iff]
  simp only [asAddr_host, callerMram_host h, toInt_pgnum_iff]
  split
  · rename_i hmap
    exact ⟨trivial, hpages hmap⟩
  all_goals simp

/-- `SYSCALL 17` of a process that is in a queue of its kernel. -/
theorem libsyscall_memmap {mem : Bytes} {p mram : Ptr} {pcb : HostPcb}
    (h : PcbAt mem p pcb mram)
    (hfound : findCaller Source.sysMem.view mem pcb.krnl pcb.pid = some (some p))
    (a1 a2 a3 : Arg) (value : BitVec 8) :
    libsyscall mem p 17 a1 a2 a3 value =
      (operate Source.sysMem.view mem p ⟨a1, a2, a3⟩ value).map fun r => (0, r.1) := by
  have hpid : BitVec.ofNat 32 pcb.pid.toNat = pcb.pid :=
    (BitVec.ofNat_toNat 32 pcb.pid).trans (BitVec.setWidth_eq pcb.pid)
  simp only [libsyscall, libstd_view, h.krnl, h.pid, hpid]
  rw [syscall, if_neg (by decide), if_pos rfl, sysMemmap, if_neg pcb.krnl_ne, hfound]
  simp only [Option.map_map]
  rfl

/-- The operation of `SYSCALL 17` receives what is given if and only if the addresses and
sizes fit into the types of `sys_mem.c`, and the device is the one that is found through
the seventh register. -/
theorem libsyscall_receives_iff {mem : Bytes} {p mram : Ptr} {pcb : HostPcb}
    (h : PcbAt mem p pcb mram)
    (hfound : findCaller Source.sysMem.view mem pcb.krnl pcb.pid = some (some p))
    (a1 a2 a3 : Arg) (value : BitVec 8) :
    Passes a2 a3 mram ((libsyscall mem p 17 a1 a2 a3 value).map Prod.snd) ↔
      Fits mem pcb.regs mram a1 a2 a3 := by
  have hcall : (libsyscall mem p 17 a1 a2 a3 value).map Prod.snd =
      (operate Source.sysMem.view mem p ⟨a1, a2, a3⟩ value).map Prod.fst := by
    rw [libsyscall_memmap h hfound, Option.map_map]
    rfl
  rw [hcall, passes_operate_iff, callerMram_sysMem h]
  simp only [asAddr_sysMem_iff, toInt_pgnum_iff]
  rfl

/-! ## A process in memory -/

/-- The memory that holds numbers of some bytes at some addresses, and nothing else. -/
def stored (chunks : List (Nat × Nat × Nat)) : Bytes := fun addr =>
  match chunks.find? fun c => decide (c.1 ≤ addr.toNat) && decide (addr.toNat < c.1 + c.2.1) with
  | none => none
  | some c => some (BitVec.ofNat 8 (c.2.2 / 256 ^ (addr.toNat - c.1)))

/-- Process 1 with empty registers in the list of running processes of its kernel. -/
def sampleMem : Bytes :=
  stored [(4096, 4, 1), (4216, 80, 0), (4304, 8, 8192), (8192, 8, 0), (8200, 8, 12288),
    (8208, 8, 0), (8224, 8, 16384), (12288, 8, 4096), (12688, 4, 1)]

def samplePcb : HostPcb := ⟨1, fun _ => 0, 8192, by decide⟩

/-- The sample is a process in memory. -/
theorem samplePcb_at : PcbAt sampleMem 4096 samplePcb 16384 where
  pid := by decide
  regs := by decide
  krnl := by decide
  mram := by decide

/-- The search finds it. -/
theorem samplePcb_found :
    findCaller Source.sysMem.view sampleMem samplePcb.krnl samplePcb.pid =
      some (some 4096) := by
  decide

/-- Its arguments arrive if and only if they fit. -/
theorem libsyscall_receives_sample :
    Passes 0 4096 16384 ((libsyscall sampleMem 4096 17 2 0 4096 0).map Prod.snd) ↔
      Fits sampleMem samplePcb.regs 16384 2 0 4096 :=
  libsyscall_receives_iff samplePcb_at samplePcb_found 2 0 4096 0

/-- An increment of 2^32 + 4096 bytes reaches `inc_vma_limit` as 4096 bytes. -/
theorem not_libsyscall_receives :
    ¬ ∀ (mem : Bytes) (p mram : Ptr) (pcb : HostPcb), PcbAt mem p pcb mram →
      findCaller Source.sysMem.view mem pcb.krnl pcb.pid = some (some p) →
      ∀ (a1 a2 a3 : Arg) (value : BitVec 8),
        Passes a2 a3 mram ((libsyscall mem p 17 a1 a2 a3 value).map Prod.snd) := by
  intro hclaim
  obtain ⟨op, hop, hreceives⟩ := hclaim sampleMem 4096 16384 samplePcb samplePcb_at
    samplePcb_found 2 0 (2 ^ 32 + 4096) 0
  have hcall : (libsyscall sampleMem 4096 17 2 0 (2 ^ 32 + 4096) 0).map Prod.snd =
      some (some (.incVmaLimit 4096 0 4096)) := by
    decide
  rw [hcall] at hop
  obtain rfl := Option.some_inj.mp hop
  have hlost : (4096 : Arg) ≠ 2 ^ 32 + 4096 := by
    decide
  exact hlost (hreceives _ rfl)

end Process
end Hdh
