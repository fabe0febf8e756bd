import GemOS.Tracer.RecordAtomic

/-!
# Captured call chains

The handler pushes the frame pointer, as the function would have done, and walks the frames from
there. `walk_frames_chain` says what the walk collects from a chain of frames, `frames_after_push`
that the push does not disturb the chain.
-/

namespace GemOS.Tracer

open LinkedList

/-! ## Words in user memory -/

/-- A word is its eight bytes. -/
theorem word_of_bytes (word : U64) :
    wordByte word 7 ++ wordByte word 6 ++ wordByte word 5 ++ wordByte word 4 ++ wordByte word 3 ++
      wordByte word 2 ++ wordByte word 1 ++ wordByte word 0 = word := by
  refine BitVec.eq_of_getLsbD_eq fun i hi => ?_
  simp only [wordByte, BitVec.getLsbD_append, BitVec.getLsbD_setWidth, BitVec.getLsbD_ushiftRight]
  split_ifs
  all_goals
    rw [decide_eq_true (by omega), Bool.true_and]
    congr 1
    omega

/-- The word that has been stored. -/
theorem load_store_word (mem : UserMem) (address word : U64) :
    loadWord (storeWord mem address word) address = word := by
  have hbyte (i : Nat) (hi : i < 8) :
      storeWord mem address word (address + BitVec.ofNat 64 i) = wordByte word i := by
    have hoffset : (address + BitVec.ofNat 64 i - address).toNat = i := by bv_omega
    rw [storeWord]
    simp only [hoffset, if_pos hi]
  have hfirst : storeWord mem address word address = wordByte word 0 := by
    simpa using hbyte 0 (by omega)
  have hword := word_of_bytes word
  rw [← hbyte 7 (by omega), ← hbyte 6 (by omega), ← hbyte 5 (by omega), ← hbyte 4 (by omega),
    ← hbyte 3 (by omega), ← hbyte 2 (by omega), ← hbyte 1 (by omega), ← hfirst] at hword
  exact hword

/-- A word behind the stored one. -/
theorem load_store_other {mem : UserMem} {address word other : U64}
    (hlow : address.toNat + 8 ≤ other.toNat) (hhigh : other.toNat + 8 ≤ 2 ^ 64) :
    loadWord (storeWord mem address word) other = loadWord mem other := by
  have hbyte (i : Nat) (hi : i < 8) :
      storeWord mem address word (other + BitVec.ofNat 64 i) = mem (other + BitVec.ofNat 64 i) := by
    have hout : ¬ (other + BitVec.ofNat 64 i - address).toNat < 8 := by bv_omega
    rw [storeWord]
    simp only [if_neg hout]
  have hfirst : storeWord mem address word other = mem other := by
    simpa using hbyte 0 (by omega)
  have hload (m : UserMem) : loadWord m other =
      m (other + BitVec.ofNat 64 7) ++ m (other + BitVec.ofNat 64 6) ++
        m (other + BitVec.ofNat 64 5) ++ m (other + BitVec.ofNat 64 4) ++
        m (other + BitVec.ofNat 64 3) ++ m (other + BitVec.ofNat 64 2) ++
        m (other + BitVec.ofNat 64 1) ++ m other := rfl
  rw [hload, hload, hfirst, hbyte 7 (by omega), hbyte 6 (by omega), hbyte 5 (by omega),
    hbyte 4 (by omega), hbyte 3 (by omega), hbyte 2 (by omega), hbyte 1 (by omega)]

/-! ## Chains of frames -/

/-- A chain of stack frames at or above `low`: what has been called returns to `returnAddr`, its
caller has its frame at `rbp`, with its own return address behind the saved frame pointer, and so
on up to `END_ADDR`. `addrs` are the return addresses before that. -/
def FrameChain (mem : UserMem) (low rbp returnAddr : U64) : List U64 → Prop
  | [] => returnAddr = END_ADDR
  | addr :: addrs => returnAddr = addr ∧ addr ≠ END_ADDR ∧ low.toNat ≤ rbp.toNat ∧
      rbp.toNat + 16 ≤ 2 ^ 64 ∧
      FrameChain mem low (loadWord mem rbp) (loadWord mem (rbp + 8)) addrs

/-- The calls that are open when a function is entered: its return address is on top of the stack,
with room for one more word, and the frame of its caller is at `rbp`. -/
structure CallChain (fault : Fault) (addrs : List U64) : Prop where
  room : 8 ≤ fault.regs.entryRsp.toNat
  top : fault.regs.entryRsp.toNat + 8 ≤ 2 ^ 64
  frames : FrameChain fault.mem fault.regs.entryRsp fault.regs.rbp
    (loadWord fault.mem fault.regs.entryRsp) addrs

variable {mem : UserMem} {low rbp returnAddr address word : U64} {addrs : List U64} {fuel : Nat}

/-- The walk collects the return addresses, if there is room for them. -/
theorem walk_frames_chain (room : Nat) (h : FrameChain mem low rbp returnAddr addrs)
    (hfuel : addrs.length < fuel) :
    walkFrames mem fuel room rbp returnAddr = if addrs.length ≤ room then some addrs else none := by
  obtain ⟨fuel, rfl⟩ := Nat.exists_eq_add_one_of_ne_zero (Nat.ne_zero_of_lt hfuel)
  induction addrs generalizing fuel room rbp returnAddr with
  | nil =>
      have hend : returnAddr = END_ADDR := h
      rw [List.length_nil, if_pos (Nat.zero_le _)]
      cases room with
      | zero => rw [walkFrames, if_pos hend]
      | succ room => rw [walkFrames, if_pos hend]
  | cons addr addrs ih =>
      obtain ⟨rfl, hend, _, _, hrest⟩ := h
      rw [List.length_cons] at hfuel ⊢
      obtain ⟨fuel, rfl⟩ := Nat.exists_eq_add_one_of_ne_zero (show fuel ≠ 0 by omega)
      cases room with
      | zero => rw [walkFrames, if_neg hend, if_neg (Nat.not_succ_le_zero _)]
      | succ room =>
          rw [walkFrames, if_neg hend, ih room hrest fuel (by omega)]
          simp only [Nat.add_le_add_iff_right]
          split_ifs <;> rfl

/-- A store below the frames leaves them as they are. -/
theorem FrameChain.store (h : FrameChain mem low rbp returnAddr addrs)
    (hbelow : address.toNat + 8 ≤ low.toNat) :
    FrameChain (storeWord mem address word) low rbp returnAddr addrs := by
  induction addrs generalizing rbp returnAddr with
  | nil => exact h
  | cons addr addrs ih =>
      obtain ⟨haddr, hend, hlow, hhigh, hrest⟩ := h
      have hsecond : (rbp + 8).toNat = rbp.toNat + 8 := BitVec.toNat_add_of_lt (by simp; omega)
      refine ⟨haddr, hend, hlow, hhigh, ?_⟩
      rw [load_store_other (by omega) (by omega), load_store_other (by omega) (by omega)]
      exact ih hrest

/-- The walk after the push. -/
theorem CallChain.backtraceWords {fault : Fault} {info : FtraceInfo} (h : CallChain fault addrs)
    (hcapture : info.captureBacktrace = 1) (hfuel : addrs.length < fuel) :
    backtraceWords fuel info fault =
      if addrs.length ≤ SCRATCH_WORDS then some (fault.regs.entryRip :: addrs) else none := by
  obtain ⟨hroom, htop, hframes⟩ := h
  have hpush : (fault.regs.entryRsp - 8).toNat + 8 = fault.regs.entryRsp.toNat := by bv_omega
  have hreturn : fault.regs.entryRsp - 8 + 8 = fault.regs.entryRsp := BitVec.sub_add_cancel _ _
  have hstored : loadWord (storeWord fault.mem (fault.regs.entryRsp - 8) fault.regs.rbp)
      fault.regs.entryRsp = loadWord fault.mem fault.regs.entryRsp :=
    load_store_other (Nat.le_of_eq hpush) htop
  have hchain : FrameChain (storeWord fault.mem (fault.regs.entryRsp - 8) fault.regs.rbp)
      fault.regs.entryRsp fault.regs.rbp (loadWord fault.mem fault.regs.entryRsp) addrs :=
    hframes.store (Nat.le_of_eq hpush)
  have hwalk := walk_frames_chain SCRATCH_WORDS hchain hfuel
  simp only [Tracer.backtraceWords, if_pos hcapture, enterFunction, hreturn, load_store_word,
    hstored, hwalk, Option.bind_eq_bind]
  split_ifs <;> rfl

/-! ## The record -/

/-- The words of the record: the function, its first arguments, the function again and the return
addresses from the innermost on. -/
def chainWords (info : FtraceInfo) (regs : UserRegs) (addrs : List U64) : List U64 :=
  regs.entryRip :: regs.args.take (min info.numArgs.toNat 5) ++ regs.entryRip :: addrs

/-- A function with a captured call chain of any length is entered, and the trace buffer has room
for the record: the whole record is appended, and the return addresses fit the scratch page. -/
theorem backtrace_recorded {k : Kernel} {fault : Fault} {info : FtraceInfo} {file : File}
    {queue : List U8} (hregistered : registration k fault.regs.entryRip = some info)
    (hcapture : info.captureBacktrace = 1) (hchain : CallChain fault addrs)
    (hopen : k.ctx.file info.fd = some file) (hring : Represents file.traceBuffer queue)
    (hroom : queue.length + (8 * (chainWords info fault.regs addrs).length + 1) ≤ 4096)
    (hfuel : addrs.length < fuel) :
    ∃ k' regs' file',
      handleFtraceFault fuel { k with mem := fault.mem } fault.regs = some (0, k', regs') ∧
      k'.ctx.file info.fd = some file' ∧
      Represents file'.traceBuffer
        (queue ++ (recordBytes (chainWords info fault.regs addrs) ++ [DELIMITER])) ∧
      8 * addrs.length ≤ 4096 := by
  have hlen : addrs.length + 2 ≤ (chainWords info fault.regs addrs).length := by
    simp only [chainWords, List.length_cons, List.length_append]
    omega
  have hscratch : addrs.length ≤ SCRATCH_WORDS := by
    unfold SCRATCH_WORDS
    omega
  have hwords : fault.regs.entryRip :: fault.regs.args.take info.numArgs.toNat ++
      fault.regs.entryRip :: addrs = chainWords info fault.regs addrs := by
    rw [chainWords, show min info.numArgs.toNat 5 =
      min info.numArgs.toNat fault.regs.args.length from rfl, List.take_eq_take_min]
  have hrecord : faultRecord fuel k fault = some (info.fd, chainWords info fault.regs addrs) := by
    rw [fault_record_eq, hregistered, Option.bind_some, hchain.backtraceWords hcapture hfuel,
      if_pos hscratch, Option.map_some, hwords]
  have hfit : queue.length + encodedSize [chainWords info fault.regs addrs] ≤ 4096 := hroom
  obtain ⟨mem, regs', file', hfault, hrep⟩ := handle_fault_stores hrecord hring hfit
  have hsame : { k with mem := fault.mem }.withFile info.fd file = { k with mem := fault.mem } :=
    with_file_self hopen
  rw [hsame] at hfault
  exact ⟨_, regs', file', hfault, file_with_file _ _ _, hrep, by omega⟩

/-- A function with two arguments whose call chain is captured. -/
def chainInfo : FtraceInfo :=
  { faddr := 0x100001000, codeBackup := fun _ => 0x55, numArgs := 2, fd := 3
    captureBacktrace := 1 }

/-- The sample process with that function. -/
def chainKernel : Kernel :=
  { sampleKernel.withFile 3 sampleFile with
    ftraceNodes := (Heap.empty.alloc { data := chainInfo, next := none }).2 }

/-- The function is called at `0x100000fab` from a function that `main` has called at
`0x100000f00`. -/
def chainFault : Fault :=
  { mem := storeWord (storeWord (storeWord (storeWord (fun _ => 0) 0x7ff108 END_ADDR)
      0x7ff008 0x100000f00) 0x7ff000 0x7ff100) 0x7fe000 0x100000fab
    regs := ⟨7, 8, 0, 0, 0, 0x7ff000, 0x100001000, 0x7fe000⟩ }

theorem chainFault_chain : CallChain chainFault [0x100000fab, 0x100000f00] := by
  refine ⟨by decide, by decide, load_store_word _ _ _, by decide, by decide, by decide, ?_⟩
  have hframe : loadWord chainFault.mem 0x7ff000 = 0x7ff100 := by decide +kernel
  have hreturn : loadWord chainFault.mem 0x7ff008 = 0x100000f00 := by decide +kernel
  have hlast : loadWord chainFault.mem 0x7ff108 = END_ADDR := by decide +kernel
  show FrameChain chainFault.mem _ (loadWord chainFault.mem 0x7ff000)
    (loadWord chainFault.mem 0x7ff008) [0x100000f00]
  rw [hframe, hreturn]
  exact ⟨rfl, by decide, by decide, by decide, hlast⟩

/-- The innermost call comes first in the record. -/
theorem backtrace_recorded_sample :
    ∃ k' regs' file',
      handleFtraceFault 3 { chainKernel with mem := chainFault.mem } chainFault.regs =
        some (0, k', regs') ∧
      k'.ctx.file 3 = some file' ∧
      Represents file'.traceBuffer
        ([] ++ (recordBytes [0x100001000, 7, 8, 0x100001000, 0x100000fab, 0x100000f00] ++
          [DELIMITER])) ∧
      8 * 2 ≤ 4096 := by
  have hregistered : registration chainKernel chainFault.regs.entryRip = some chainInfo := rfl
  have hlen : [(0x100000fab : U64), 0x100000f00].length < 3 := by decide
  exact backtrace_recorded hregistered rfl chainFault_chain rfl sample_file_empty (by decide) hlen

end GemOS.Tracer
