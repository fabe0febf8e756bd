import GemOS.Tracer.RecordAtomic
import GemOS.Tracer.StraceLife

/-!
# Strace as a service

What strace is for: a process names system calls, starts tracing to a descriptor, and reads the
records of the calls it has made since, in order. `Service` says so with a list of numbers and a
queue of records for each descriptor. The kernel answers every call as the service does
(`strace_refines_service`), and over a whole run each record is read once and in order, or is
still in the buffer (`records_delivered_once`).
-/

namespace GemOS.Tracer

open LinkedList

/-! ## The calls of a process -/

/-- What a process does: it asks for a system call to be traced or not, starts tracing, makes a
system call, or reads records. -/
inductive StraceEvent where
  | strace (req : StraceRequest)
  | start (fd tracingMode : CInt)
  | call (call : Syscall)
  | read (fd : CInt) (count : U64)

/-- The return value, and the bytes stored in the user's buffer. -/
structure Answer where
  ret : Int
  out : List U8
  deriving DecidableEq

/-- One event in the kernel. -/
def StraceEvent.step (k : Kernel) : StraceEvent → Option (Answer × Kernel)
  | .strace req => (req.run k).map fun answer => (⟨answer.1, []⟩, answer.2)
  | .start fd tracingMode =>
      (sysStartStrace k fd tracingMode).map fun answer => (⟨answer.1, []⟩, answer.2)
  | .call syscall => (performTracing k syscall).map fun answer => (⟨answer.1, []⟩, answer.2)
  | .read fd count =>
      (sysReadStrace (k.ctx.file fd) count).map fun answer =>
        (⟨answer.ret, answer.out⟩, { k with ctx := k.ctx.setFile fd answer.filep })

/-! ## The service -/

/-- The numbers traced, the descriptor and the mode of tracing once it is started, and the records
not yet read, for each open descriptor. -/
structure Service where
  traced : List CInt
  target : Option (CInt × CInt)
  pending : CInt → Option (List (List U64))

instance StraceRequest.Refused.decidable :
    ∀ (req : StraceRequest) (nums : List CInt), Decidable (req.Refused nums)
  | .add _, _ => inferInstanceAs (Decidable (_ ∨ _))
  | .remove _, _ => inferInstanceAs (Decidable (_ ∉ _))

namespace Service

/-- The descriptor that gets the record of a system call, if the call is traced. -/
def selects (s : Service) (num : U64) : Option CInt :=
  if num = 37 ∨ num = 38 then none
  else s.target.bind fun target =>
    if target.2 = FILTERED_TRACING ∧ ¬ s.traced.any (fun n => n.signExtend 64 == num) then none
    else some target.1

/-- A record for a descriptor; it is dropped if the descriptor is closed. -/
def append (s : Service) (fd : CInt) (words : List U64) : Service :=
  { s with pending :=
      Function.update s.pending fd ((s.pending fd).map fun records => records ++ [words]) }

/-- One event. -/
def step (s : Service) : StraceEvent → Answer × Service
  | .strace req =>
      if req.Refused s.traced then (⟨-EINVAL, []⟩, s)
      else (⟨0, []⟩, { s with traced := req.apply s.traced })
  | .start fd tracingMode =>
      if fd.slt 0 ∨ tracingMode ≠ FULL_TRACING ∧ tracingMode ≠ FILTERED_TRACING then
        (⟨-EINVAL, []⟩, s)
      else (⟨0, []⟩, { s with target := some (fd, tracingMode) })
  | .call call =>
      match s.selects call.num with
      | none => (⟨0, []⟩, s)
      | some fd => (⟨0, []⟩, s.append fd call.words)
  | .read fd count =>
      match s.pending fd with
      | none => (⟨-EINVAL, []⟩, s)
      | some records =>
          let out := (records.take count.toNat).flatMap recordBytes
          (⟨out.length, out⟩,
            { s with pending := Function.update s.pending fd (some (records.drop count.toNat)) })

/-- What the kernel relies on: descriptors are in the table, a record fits the buffer, and the
records read are some, if any are asked for, and contain no delimiter byte. -/
def Fits (s : Service) : StraceEvent → Prop
  | .strace _ => True
  | .start fd _ => fd.slt 0 ∨ fd.toNat < MAX_OPEN_FILES
  | .call call => ∀ fd ∈ s.selects call.num, ∀ records ∈ s.pending fd,
      encodedSize (records ++ [call.words]) ≤ 4096
  | .read fd count => fd.toNat < MAX_OPEN_FILES ∧ ∀ records ∈ s.pending fd,
      DelimiterFree (records.take count.toNat) ∧ (records ≠ [] ∨ count.toNat = 0)

instance (records : List (List U64)) : Decidable (DelimiterFree records) :=
  inferInstanceAs (Decidable (∀ words ∈ records, _))

instance : ∀ (s : Service) (event : StraceEvent), Decidable (s.Fits event)
  | _, .strace _ => inferInstanceAs (Decidable True)
  | _, .start _ _ => inferInstanceAs (Decidable (_ ∨ _))
  -- the instance for all bit vectors would try every descriptor
  | s, .call call => Option.decidableForallMem (s.selects call.num)
  | _, .read _ _ => inferInstanceAs (Decidable (_ ∧ ∀ _ ∈ _, _))

end Service

/-! ## The state of the kernel -/

/-- A trace buffer holds the pending records of its descriptor; a closed descriptor has none. -/
def FileHolds : Option File → Option (List (List U64)) → Prop
  | none, none => True
  | some file, some records => Represents file.traceBuffer (encode records)
  | _, _ => False

/-- The kernel is in the state of the service. -/
structure Serves (k : Kernel) (s : Service) : Prop where
  pid : k.ctx.pid ≠ 0
  traced : ∃ xs, Straced k xs ∧ numbers xs = s.traced
  started : Started k s.target
  holds : ∀ fd, FileHolds (k.ctx.file fd) (s.pending fd)

section Steps

variable {k k' : Kernel} {s : Service} {fd : CInt}

/-- The files of a kernel hold what they held. -/
theorem Serves.holds_of_files (h : Serves k s) (hfiles : k'.ctx.files = k.ctx.files) (fd : CInt) :
    FileHolds (k'.ctx.file fd) (s.pending fd) := by
  have hfile : k'.ctx.file fd = k.ctx.file fd := congrFun hfiles fd.toNat
  exact hfile ▸ h.holds fd

/-- A request is answered as by the service. -/
theorem Serves.strace (h : Serves k s) (req : StraceRequest) :
    ∃ k', (StraceEvent.strace req).step k = some ((s.step (.strace req)).1, k') ∧
      Serves k' (s.step (.strace req)).2 := by
  obtain ⟨xs, hxs, hnums⟩ := h.traced
  obtain ⟨ret, k', xs', hrun, hxs', hchange, hsettings⟩ := sys_strace_cases hxs req
  have hserves : ∀ nums, numbers xs' = nums →
      Serves k' { s with traced := nums } := fun nums hnums =>
    ⟨hsettings.pid ▸ h.pid, ⟨xs', hxs', hnums⟩, hsettings.started _ h.started,
      h.holds_of_files hsettings.files⟩
  have hrecorded := hchange.recorded hxs.numbers_nodup
  refine ⟨k', ?_, ?_⟩
  · simp only [StraceEvent.step, Service.step, hrun, Option.map_some]
    rcases hchange.ret with ⟨hrefused, rfl, -⟩ | ⟨hmet, rfl⟩
    · rw [hnums] at hrefused
      rw [if_pos hrefused]
    · rw [hnums] at hmet
      rw [if_neg hmet]
  · simp only [Service.step]
    rcases hchange.ret with ⟨hrefused, rfl, rfl⟩ | ⟨hmet, rfl⟩
    · rw [hnums] at hrefused
      rw [if_pos hrefused]
      exact hserves s.traced hnums
    · rw [hnums] at hmet hrecorded
      rw [if_neg hmet]
      exact hserves _ hrecorded

/-- Tracing is started as by the service. -/
theorem Serves.start (h : Serves k s) (fd tracingMode : CInt) :
    ∃ k', (StraceEvent.start fd tracingMode).step k =
        some ((s.step (.start fd tracingMode)).1, k') ∧
      Serves k' (s.step (.start fd tracingMode)).2 := by
  obtain ⟨xs, hxs, hnums⟩ := h.traced
  simp only [StraceEvent.step, Service.step, sysStartStrace]
  by_cases hfd : fd.slt 0
  · simp only [if_pos hfd, if_pos (Or.inl hfd : fd.slt 0 ∨ _), Option.map_some]
    exact ⟨k, rfl, h⟩
  by_cases hmode : tracingMode ≠ FULL_TRACING ∧ tracingMode ≠ FILTERED_TRACING
  · simp only [if_neg hfd, if_pos hmode, if_pos (Or.inr hmode : fd.slt 0 ∨ _), Option.map_some]
    exact ⟨k, rfl, h⟩
  have hneither : ¬ (fd.slt 0 ∨ tracingMode ≠ FULL_TRACING ∧ tracingMode ≠ FILTERED_TRACING) :=
    not_or.mpr ⟨hfd, hmode⟩
  obtain ⟨base, head, k₁, hmd, hbase, hhead, hpid, hfiles, hok, hlen⟩ := strace_base_straced hxs
  obtain ⟨heads, hstore, hself, hstraced⟩ := store_strace_head
    { head with straceFd := fd, isTraced := k₁.ctx.pid, tracingMode := tracingMode }
    hok hlen hbase hhead
  simp only [if_neg hfd, if_neg hmode, if_neg hneither, hmd, hhead, hstore, Option.bind_eq_bind,
    Option.bind_some, Option.map_some]
  exact ⟨_, rfl, ⟨hpid ▸ h.pid, ⟨xs, hstraced, hnums⟩, ⟨base, _, hbase, hself, rfl, rfl, rfl⟩,
    h.holds_of_files hfiles⟩⟩

/-- The head of a process that traces, and the list behind it. -/
theorem Serves.head (h : Serves k s) {target : CInt × CInt} (htarget : s.target = some target) :
    ∃ base head xs, k.ctx.stMdBase = some base ∧ k.straceHeads.cell base = some head ∧
      head.isTraced = k.ctx.pid ∧ head.straceFd = target.1 ∧ head.tracingMode = target.2 ∧
      ListOk StraceInfo.syscallNum k.straceNodes head.next head.last head.count xs ∧
      numbers xs = s.traced := by
  have hstarted := h.started
  rw [htarget] at hstarted
  obtain ⟨base, head, hbase, hhead, htraced, hfd, hmode⟩ := hstarted
  obtain ⟨xs, hxs, hnums⟩ := h.traced
  rcases hxs with ⟨hnone, -⟩ | ⟨base', head', hbase', hhead', hok, -⟩
  · cases hbase.symm.trans hnone
  · obtain ⟨rfl, rfl⟩ := head_unique hbase hhead hbase' hhead'
    exact ⟨base, head, xs, hbase, hhead, htraced, hfd, hmode, hok, hnums⟩

/-- In filtered tracing the numbers on the list are selected. -/
theorem Serves.target_filtered (h : Serves k s) {target : CInt × CInt}
    (htarget : s.target = some target) (hmode : target.2 = FILTERED_TRACING) {num : U64}
    (hnum : ¬ (num = 37 ∨ num = 38)) :
    traceTarget k num = some (if s.traced.any fun n => n.signExtend 64 == num
      then some target.1 else none) := by
  obtain ⟨base, head, xs, hbase, hhead, htraced, hfd, hhmode, hok, hnums⟩ := h.head htarget
  have hiff := trace_target_filtered hbase hhead htraced h.pid (hhmode.trans hmode) hok num
  have hto : TracesTo k head.straceFd :=
    ⟨base, head, xs, hbase, hhead, rfl, hok.seg, hok.nodup⟩
  have hfound : s.traced.any (fun n => n.signExtend 64 == num) ↔
      (traceTarget k num).join.isSome := by
    rw [hiff, hnums, List.any_eq_true]
    obtain ⟨h37, h38⟩ := not_or.mp hnum
    constructor
    · rintro ⟨n, hn, heq⟩
      exact ⟨h37, h38, n, beq_iff_eq.mp heq, hn⟩
    · rintro ⟨-, -, n, heq, hn⟩
      exact ⟨n, hn, beq_iff_eq.mpr heq⟩
  rw [← hfd]
  rcases hto.target num with heq | heq <;> rw [heq] at hfound ⊢
  · rw [if_neg fun hany => by simpa using hfound.mp hany]
  · rw [if_pos (hfound.mpr rfl)]

/-- The checks of `perform_tracing` select what the service selects. -/
theorem Serves.target_eq (h : Serves k s) (num : U64) :
    traceTarget k num = some (s.selects num) := by
  unfold Service.selects
  by_cases hnum : num = 37 ∨ num = 38
  · rw [traceTarget, if_pos hnum, if_pos hnum]
  rw [if_neg hnum]
  cases htarget : s.target with
  | none =>
      have hstarted := h.started
      rw [htarget] at hstarted
      rcases hstarted with hbase | ⟨base, head, hbase, hhead, hnot⟩
      · simp only [traceTarget, if_neg hnum, hbase, Option.bind_none]
      · simp only [traceTarget, if_neg hnum, hbase, hhead, hnot, Option.bind_eq_bind,
          Option.bind_some, if_true, Option.bind_none]
  | some target =>
      rw [Option.bind_some]
      by_cases hmode : target.2 = FILTERED_TRACING
      · rw [h.target_filtered htarget hmode hnum]
        split_ifs with hany hand hand
        · exact absurd hany hand.2
        · rfl
        · rfl
        · exact absurd ⟨hmode, hany⟩ hand
      · obtain ⟨base, head, -, hbase, hhead, htraced, hfd, hhmode, -, -⟩ := h.head htarget
        rw [if_neg fun hand => hmode hand.1, ← hfd]
        rw [← hhmode] at hmode
        simp only [traceTarget, if_neg hnum, hbase, hhead, htraced, if_neg h.pid, ne_eq,
          not_true_eq_false, if_false, if_neg hmode, Option.bind_eq_bind, Option.bind_some]

/-- A file is put in the place of another one. -/
theorem Serves.set_file (h : Serves k s) (fd : CInt) {filep : Option File}
    {records : Option (List (List U64))} (hholds : FileHolds filep records) :
    Serves { k with ctx := k.ctx.setFile fd filep }
      { s with pending := Function.update s.pending fd records } := by
  obtain ⟨xs, hxs, hnums⟩ := h.traced
  refine ⟨h.pid, ⟨xs, hxs.congr rfl rfl rfl, hnums⟩, ?_, fun d => ?_⟩
  · have hstarted := h.started
    show Started _ s.target
    cases htarget : s.target <;> rw [htarget] at hstarted <;> exact hstarted
  · by_cases hd : d = fd
    · subst hd
      show FileHolds ((k.ctx.setFile d filep).file d) (Function.update s.pending d records d)
      rw [ExecContext.file_setFile, Function.update_self]
      exact hholds
    · show FileHolds ((k.ctx.setFile fd filep).file d) (Function.update s.pending fd records d)
      rw [Function.update_of_ne hd]
      have hother : (k.ctx.setFile fd filep).file d = k.ctx.file d :=
        Function.update_of_ne (fun heq => hd (BitVec.eq_of_toNat_eq heq)) _ _
      exact hother ▸ h.holds d

/-- A record is written as the service appends it. -/
theorem Serves.append (h : Serves k s) (fd : CInt) (words : List U64)
    (hroom : ∀ records ∈ s.pending fd, encodedSize (records ++ [words]) ≤ 4096) :
    ∃ k', writeRecord k fd words = some k' ∧ Serves k' (s.append fd words) := by
  have hholds := h.holds fd
  unfold Service.append
  cases hpending : s.pending fd <;> cases hfile : k.ctx.file fd <;>
    rw [hpending, hfile] at hholds
  case none.none =>
    have hsame : Function.update s.pending fd none = s.pending :=
      hpending ▸ Function.update_eq_self fd s.pending
    rw [Option.map_none, hsame]
    exact ⟨k, write_record_closed hfile, h⟩
  case none.some file => exact hholds.elim
  case some.none records => exact hholds.elim
  case some.some records file =>
    have hroom := hroom records hpending
    rw [encoded_size_append] at hroom
    obtain ⟨file', hwrite, hrep⟩ := write_record_stores k fd words hholds
      (by rwa [length_encode])
    rw [with_file_self hfile] at hwrite
    rw [← encode_append] at hrep
    exact ⟨k.withFile fd file', hwrite, h.set_file fd hrep⟩

/-- A system call is recorded as by the service. -/
theorem Serves.call (h : Serves k s) (call : Syscall) (hfits : s.Fits (.call call)) :
    ∃ k', (StraceEvent.call call).step k = some ((s.step (.call call)).1, k') ∧
      Serves k' (s.step (.call call)).2 := by
  have htarget := h.target_eq call.num
  simp only [StraceEvent.step, Service.step]
  cases hselects : s.selects call.num with
  | none =>
      rw [hselects] at htarget
      refine ⟨k, ?_, h⟩
      simp only [performTracing, htarget, Option.bind_eq_bind, Option.bind_some, Option.map_some]
  | some fd =>
      rw [hselects] at htarget
      obtain ⟨k', hwrite, hserves⟩ := h.append fd call.words (hfits fd hselects)
      rw [perform_tracing_record htarget, hwrite]
      exact ⟨k', rfl, hserves⟩

/-- Records are read as by the service. -/
theorem Serves.read (h : Serves k s) (fd : CInt) (count : U64) (hfits : s.Fits (.read fd count)) :
    ∃ k', (StraceEvent.read fd count).step k = some ((s.step (.read fd count)).1, k') ∧
      Serves k' (s.step (.read fd count)).2 := by
  have hholds := h.holds fd
  simp only [StraceEvent.step, Service.step]
  cases hpending : s.pending fd <;> cases hfile : k.ctx.file fd <;>
    rw [hpending, hfile] at hholds
  case none.none =>
    have hclosed : FileHolds none none := trivial
    have hset := h.set_file fd hclosed
    have hsame : Function.update s.pending fd none = s.pending :=
      hpending ▸ Function.update_eq_self fd s.pending
    rw [hsame] at hset
    exact ⟨_, rfl, hset⟩
  case none.some file => exact hholds.elim
  case some.none records => exact hholds.elim
  case some.some records file =>
    obtain ⟨answer, file', hread, hout, hret, hfilep, hrep⟩ :=
      (sys_read_strace_iff count hholds).mpr (hfits.2 records hpending)
    rw [hread, Option.map_some, hret, hout]
    have hfile' : FileHolds answer.filep (some (records.drop count.toNat)) := by
      rw [hfilep]
      exact hrep
    exact ⟨_, rfl, h.set_file fd hfile'⟩

end Steps

/-! ## Records of a run -/

/-- The records an event makes for a descriptor. -/
def Service.recorded (s : Service) (fd : CInt) : StraceEvent → List (List U64)
  | .call call => if s.selects call.num = some fd then [call.words] else []
  | _ => []

/-- The records a run makes for a descriptor, in order. -/
def Service.recordedAll (fd : CInt) : Service → List StraceEvent → List (List U64)
  | _, [] => []
  | s, event :: events => s.recorded fd event ++ recordedAll fd (s.step event).2 events

/-- The bytes that a call reads from a descriptor. -/
def readFrom (fd : CInt) : StraceEvent → Answer → List U8
  | .read d _, answer => if d = fd then answer.out else []
  | _, _ => []

/-- The bytes that a run reads from a descriptor, in order. -/
def readAllFrom (fd : CInt) (events : List StraceEvent) (answers : List Answer) : List U8 :=
  (events.zip answers).flatMap fun call => readFrom fd call.1 call.2

section Records

variable {s : Service} {fd : CInt} {records : List (List U64)}

/-- One event reads the first records of the queue and adds its own record at the end. -/
theorem Service.step_records (hpending : s.pending fd = some records) (event : StraceEvent) :
    ∃ read unread, records ++ s.recorded fd event = read ++ unread ∧
      readFrom fd event (s.step event).1 = read.flatMap recordBytes ∧
      (s.step event).2.pending fd = some unread := by
  cases event with
  | strace req =>
      refine ⟨[], records, List.append_nil _, rfl, ?_⟩
      dsimp only [Service.step]
      split_ifs <;> exact hpending
  | start d tracingMode =>
      refine ⟨[], records, List.append_nil _, rfl, ?_⟩
      dsimp only [Service.step]
      split_ifs <;> exact hpending
  | call call =>
      refine ⟨[], records ++ s.recorded fd (.call call), rfl, rfl, ?_⟩
      simp only [Service.step, Service.recorded]
      cases hselects : s.selects call.num with
      | none => simpa using hpending
      | some d =>
          by_cases hd : d = fd
          · subst hd
            simp [Service.append, hpending]
          · have hother : fd ≠ d := Ne.symm hd
            simp [Service.append, hd, Function.update_of_ne hother, hpending]
  | read d count =>
      by_cases hd : d = fd
      · subst hd
        refine ⟨records.take count.toNat, records.drop count.toNat, ?_, ?_, ?_⟩
        · rw [List.take_append_drop]
          exact List.append_nil _
        · simp [readFrom, Service.step, hpending]
        · simp [Service.step, hpending]
      · refine ⟨[], records, List.append_nil _, by simp [readFrom, hd], ?_⟩
        simp only [Service.step]
        cases s.pending d with
        | none => exact hpending
        | some records' =>
            show Function.update s.pending d _ fd = _
            rw [Function.update_of_ne (Ne.symm hd)]
            exact hpending

/-- A run reads the first records of the queue and adds its own records at the end. -/
theorem Service.run_records (hpending : s.pending fd = some records)
    (events : List StraceEvent) :
    ∃ read unread, records ++ Service.recordedAll fd s events = read ++ unread ∧
      readAllFrom fd events (Runs.answersOf Service.step s events).1 =
        read.flatMap recordBytes ∧
      (Runs.answersOf Service.step s events).2.pending fd = some unread := by
  induction events generalizing s records with
  | nil => exact ⟨[], records, List.append_nil _, rfl, hpending⟩
  | cons event events ih =>
      obtain ⟨read₁, unread₁, hsplit₁, hread₁, hpending₁⟩ := Service.step_records hpending event
      obtain ⟨read₂, unread, hsplit₂, hread₂, hpending₂⟩ := ih hpending₁
      refine ⟨read₁ ++ read₂, unread, ?_, ?_, hpending₂⟩
      · rw [Service.recordedAll, ← List.append_assoc, hsplit₁, List.append_assoc, hsplit₂,
          List.append_assoc]
      · rw [List.flatMap_append, ← hread₁, ← hread₂]
        rfl

end Records

/-! ## Every run -/

variable {k : Kernel} {s : Service} {events : List StraceEvent}

/-- Every run of the service that fits its buffers is a run of the kernel, with the same return
values and the same bytes read, and the kernel ends in the state of the service. -/
theorem serves_run (h : Serves k s) (hfits : Runs.AllMeet Service.step Service.Fits s events) :
    ∃ k', Runs.answers StraceEvent.step k events =
        some ((Runs.answersOf Service.step s events).1, k') ∧
      Serves k' (Runs.answersOf Service.step s events).2 := by
  refine Runs.answers_refine (fun k s event h hfits => ?_) h hfits
  cases event with
  | strace req => exact h.strace req
  | start fd tracingMode => exact h.start fd tracingMode
  | call call => exact h.call call hfits
  | read fd count => exact h.read fd count hfits

/-- The service before strace is used. -/
def Service.start (pending : CInt → Option (List (List U64))) : Service :=
  { traced := [], target := none, pending := pending }

/-- A process that has not used strace is in the state of a new service. -/
theorem serves_start {pending : CInt → Option (List (List U64))} (hpid : k.ctx.pid ≠ 0)
    (hbase : k.ctx.stMdBase = none) (hholds : ∀ fd, FileHolds (k.ctx.file fd) (pending fd)) :
    Serves k (Service.start pending) :=
  ⟨hpid, ⟨[], Or.inl ⟨hbase, rfl⟩, rfl⟩, Or.inl hbase, hholds⟩

/-- Two calls of a traced number, one of another number, and a read in between. -/
def sampleStraceEvents : List StraceEvent :=
  [.strace (.add 2), .start 3 FILTERED_TRACING, .call ⟨2, 0, 0, 0, 0⟩, .call ⟨1, 0, 0, 0, 0⟩,
    .read 3 1, .call ⟨2, 0, 0, 0, 0⟩, .strace (.remove 2), .call ⟨2, 0, 0, 0, 0⟩]

/-- Descriptor 3 is the only open one, and its buffer is empty. -/
def samplePending (fd : CInt) : Option (List (List U64)) :=
  if fd = 3 then some [] else none

theorem samplePending_holds (fd : CInt) :
    FileHolds (noStraceKernel.ctx.file fd) (samplePending fd) := by
  by_cases hfd : fd = 3
  · subst hfd
    exact sample_file_empty
  · have hclosed : noStraceKernel.ctx.file fd = none :=
      Function.update_of_ne (fun heq => hfd (BitVec.eq_of_toNat_eq heq)) _ _
    rw [hclosed, samplePending, if_neg hfd]
    trivial

theorem sampleStraceEvents_fit :
    Runs.AllMeet Service.step Service.Fits (Service.start samplePending) sampleStraceEvents := by
  decide +kernel

/-- The kernel refines the service: in every run of requests, starts, system calls and reads that
fits the buffers, each call returns what the service answers, and each buffer ends with the
pending records of the service. -/
theorem strace_refines_service {pending : CInt → Option (List (List U64))}
    (hpid : k.ctx.pid ≠ 0) (hbase : k.ctx.stMdBase = none)
    (hholds : ∀ fd, FileHolds (k.ctx.file fd) (pending fd))
    (hfits : Runs.AllMeet Service.step Service.Fits (Service.start pending) events) :
    ∃ k', Runs.answers StraceEvent.step k events =
        some ((Runs.answersOf Service.step (Service.start pending) events).1, k') ∧
      ∀ fd, FileHolds (k'.ctx.file fd)
        ((Runs.answersOf Service.step (Service.start pending) events).2.pending fd) := by
  obtain ⟨k', hrun, hserves⟩ := serves_run (serves_start hpid hbase hholds) hfits
  exact ⟨k', hrun, hserves.holds⟩

/-- One record is read, and one is left. -/
theorem strace_refines_service_sample :
    ∃ answers k', Runs.answers StraceEvent.step noStraceKernel sampleStraceEvents =
        some (answers, k') ∧
      answers = [⟨0, []⟩, ⟨0, []⟩, ⟨0, []⟩, ⟨0, []⟩, ⟨8, wordBytes 2⟩, ⟨0, []⟩, ⟨0, []⟩, ⟨0, []⟩] ∧
      FileHolds (k'.ctx.file 3) (some [[2]]) := by
  obtain ⟨k', hrun, hholds⟩ := strace_refines_service (k := noStraceKernel) (by decide) rfl
    samplePending_holds sampleStraceEvents_fit
  have hservice : (Runs.answersOf Service.step (Service.start samplePending)
      sampleStraceEvents).2.pending 3 = some [[2]] := by
    decide +kernel
  have hend := hholds 3
  rw [hservice] at hend
  exact ⟨_, k', hrun, by decide +kernel, hend⟩

/-- Records are read exactly once and in order: in every run that fits the buffers, the records a
buffer held and those of the calls made since are those that have been read, followed by those
that are still in the buffer. -/
theorem records_delivered_once {pending : CInt → Option (List (List U64))}
    (hpid : k.ctx.pid ≠ 0) (hbase : k.ctx.stMdBase = none)
    (hholds : ∀ fd, FileHolds (k.ctx.file fd) (pending fd))
    (hfits : Runs.AllMeet Service.step Service.Fits (Service.start pending) events) :
    ∃ answers k', Runs.answers StraceEvent.step k events = some (answers, k') ∧
      ∀ fd records, pending fd = some records →
        ∃ read unread, records ++ Service.recordedAll fd (Service.start pending) events =
            read ++ unread ∧
          readAllFrom fd events answers = read.flatMap recordBytes ∧
          FileHolds (k'.ctx.file fd) (some unread) := by
  obtain ⟨k', hrun, hserves⟩ := serves_run (serves_start hpid hbase hholds) hfits
  refine ⟨_, k', hrun, fun fd records hpending => ?_⟩
  obtain ⟨read, unread, hsplit, hread, hunread⟩ :=
    Service.run_records (s := Service.start pending) hpending events
  exact ⟨read, unread, hsplit, hread, hunread ▸ hserves.holds fd⟩

/-- Of three calls of the number, two are made while it is traced. -/
theorem records_delivered_once_sample :
    ∃ answers k', Runs.answers StraceEvent.step noStraceKernel sampleStraceEvents =
        some (answers, k') ∧
      ∃ read unread, [[2], [2]] = read ++ unread ∧
        readAllFrom 3 sampleStraceEvents answers = read.flatMap recordBytes ∧
        FileHolds (k'.ctx.file 3) (some unread) := by
  obtain ⟨answers, k', hrun, hall⟩ := records_delivered_once (k := noStraceKernel) (by decide) rfl
    samplePending_holds sampleStraceEvents_fit
  obtain ⟨read, unread, hsplit, hread, hunread⟩ := hall 3 [] rfl
  have hrecords : Service.recordedAll 3 (Service.start samplePending) sampleStraceEvents =
      [[2], [2]] := by
    decide +kernel
  rw [List.nil_append, hrecords] at hsplit
  exact ⟨answers, k', hrun, read, unread, hsplit, hread, hunread⟩

end GemOS.Tracer
