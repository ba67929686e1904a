import Ydb.Lib.LinkedChain

/-!
# Process timers

Pending timers are blocks of a queue in order of expiry; one system timer wakes
the process for the first of them. Blocks that are not in use are on a free list.
A timer that expires while its handler must not run stays in the queue, and a
flag asks for another look at the queue later.

What a handler does is an input of the model: while it runs, time passes, it
starts and cancels timers, and alarm signals arrive. It may only start and cancel
timers that are not already expired; a handler that touches an expired one has no
run here. `none` stands for such a run, for a queue that does not end, and for
runs that are longer than the given bounds. An `ABS_TIME` is its number of
nanoseconds.
-/

namespace Ydb

open Lib

abbrev TID := Int

/-- The handlers that the code knows by name. -/
inductive TimerHandler where
  | wcs_clean_dbsync
  | wcs_stale
  | jnl_file_close_timer
  | other (number : Nat)
deriving DecidableEq, Repr

/-- A block. `started` is not in the block: it tells which start of a timer the block
is used for. -/
structure GtTimer where
  expir_time : Nat
  start_time : Nat
  handler : Option TimerHandler
  next : Option Nat
  tid : TID
  safe : Bool
  block_int : Nat
  hd_len_max : Nat
  hd_data : List UInt8
  started : Nat
deriving DecidableEq, Repr

/-- The system timer: `timer_settime` was called at time `set` to wake the process
after `it_value`, computed from an earlier reading of the clock. -/
structure SysTimer where
  read : Nat
  set : Nat
  it_value : Nat
deriving DecidableEq, Repr

/-- The time of the alarm. -/
def SysTimer.alarm (t : SysTimer) : Nat := t.set + t.it_value

/-- What a handler may do. -/
inductive HandlerAction where
  | wait (duration : Nat)
  | start (tid : TID) (time_to_expir : Nat) (handler : Option TimerHandler) (hdata : List UInt8)
  | cancel (tid : TID)
  | alarm

/-- A call of a handler, or the removal of an expired timer without one. -/
structure Dispatch where
  started : Nat
  expir_time : Nat
  time : Nat
deriving DecidableEq, Repr

/-- The state of the timer package. Block `n` exists if `n < allocated`. The last four
fields are not the program's: the time, what the handlers that are called next do,
the number of timers started, and the timers dispatched. -/
structure TimerState where
  heap : Nat → GtTimer
  timeroot : Option Nat
  timefree : Option Nat
  num_timers_free : Int
  allocated : Nat
  safe_timer_cnt : Int
  timer_active : Bool
  timer_in_handler : Bool
  timer_stack_count : Nat
  deferred_timers_check_needed : Bool
  sys_timer_at : Nat
  sys_timer : Option SysTimer
  clock : Nat
  script : List (List HandlerAction)
  starts : Nat
  dispatched : List Dispatch

/-- The state of the process that decides which handlers may run. -/
structure TimerEnv where
  intrpt_ok_state : Nat
  process_exiting : Bool
  fast_lock_count : Nat
  multi_thread_in_use : Bool
  in_ext_call : Bool
  in_os_signal_handler : Bool
  exit_handler_active : Bool
  safe_handlers : List TimerHandler

def INTRPT_OK_TO_INTERRUPT : Nat := 0

/-- Whether any timer may be handled. -/
def SAFE_FOR_ANY_TIMER (env : TimerEnv) : Bool :=
  INTRPT_OK_TO_INTERRUPT == env.intrpt_ok_state && !env.process_exiting && env.fast_lock_count == 0

/-- Whether a timer may pop. -/
def SAFE_FOR_TIMER_POP (env : TimerEnv) : Bool := SAFE_FOR_ANY_TIMER env && !env.multi_thread_in_use

/-- Whether the system timer may be started. -/
def SAFE_FOR_TIMER_START (env : TimerEnv) : Bool := SAFE_FOR_ANY_TIMER env

/-- The handlers that must wait. -/
def IS_KNOWN_UNSAFE_TIMER_HANDLER : Option TimerHandler → Bool
  | some .wcs_stale => true
  | some .wcs_clean_dbsync => true
  | some .jnl_file_close_timer => true
  | _ => false

def TIMER_BLOCK_SIZE : Nat := 64

def GT_TIMER_EXPAND_TRIGGER : Int := 8

def GT_TIMER_INIT_DATA_LEN : Nat := 8

/-- Assign to fields of one block. -/
def TimerState.modify (s : TimerState) (a : Nat) (f : GtTimer → GtTimer) : TimerState :=
  { s with heap := Function.update s.heap a (f (s.heap a)) }

/-- Make the block before, or the root of the queue, point at `target`. -/
def TimerState.link (s : TimerState) (before target : Option Nat) : TimerState :=
  match before with
  | none => { s with timeroot := target }
  | some p => s.modify p fun t => { t with next := target }

/-- Put a block on the free list. -/
def TimerState.release (s : TimerState) (a : Nat) : TimerState :=
  { s.modify a fun t => { t with next := s.timefree } with
    timefree := some a
    num_timers_free := s.num_timers_free + 1 }

/-- Take a timer that is going to be dispatched out of the queue. -/
def TimerState.takeOut (s : TimerState) (before : Option Nat) (a : Nat) : TimerState :=
  let t := s.heap a
  let s := s.link before t.next
  { s with
    safe_timer_cnt := if t.safe then s.safe_timer_cnt - 1 else s.safe_timer_cnt
    dispatched := ⟨t.started, t.expir_time, s.clock⟩ :: s.dispatched }

/-- The block after another one, or the first of the queue. -/
def TimerState.after (s : TimerState) (before : Option Nat) : Option Nat :=
  match before with
  | some p => (s.heap p).next
  | none => s.timeroot

/-! ## The queue and the free list -/

/-- Put a new block on the free list. -/
def TimerState.newBlock (s : TimerState) : TimerState :=
  { s with
    heap := Function.update s.heap s.allocated { s.heap s.allocated with
      hd_len_max := GT_TIMER_INIT_DATA_LEN
      next := s.timefree }
    timefree := some s.allocated
    allocated := s.allocated + 1 }

/-- Put blocks on the free list. -/
def allocLoop : Nat → TimerState → TimerState
  | 0, s => s
  | gt_timer_cnt + 1, s => allocLoop gt_timer_cnt s.newBlock

/-- Allocate a block of timers. -/
def gt_timers_alloc (s : TimerState) : TimerState :=
  let s := allocLoop TIMER_BLOCK_SIZE s
  { s with num_timers_free := s.num_timers_free + TIMER_BLOCK_SIZE }

/-- Follow the pointers to the first block with a property; the result has the block
before it too. -/
def searchBlocks (heap : Nat → GtTimer) (p : GtTimer → Bool) :
    Nat → Option Nat → Option Nat → Option (Option Nat × Option Nat)
  | 0, _, _ => none
  | _ + 1, tprev, none => some (none, tprev)
  | rounds + 1, tprev, some tc =>
    if p (heap tc) then some (some tc, tprev)
    else searchBlocks heap p rounds (some tc) (heap tc).next

/-- Find a timer and the one before it. -/
def find_timer (heap : Nat → GtTimer) (tid : TID) :
    Nat → Option Nat → Option Nat → Option (Option Nat × Option Nat) :=
  searchBlocks heap fun tc => tc.tid == tid

/-- The entry of a timer and the one before. -/
def TimerState.find (s : TimerState) (tid : TID) : Option (Option Nat × Option Nat) :=
  find_timer s.heap tid (s.allocated + 1) none s.timeroot

/-- Remove a timer from the queue. -/
def remove_timer (s : TimerState) (tid : TID) : Option TimerState :=
  match s.find tid with
  | none => none
  | some (none, _) => some s
  | some (some tp, tprev) =>
    let s := s.link tprev (s.heap tp).next
    let s := { s with
      deferred_timers_check_needed :=
        s.deferred_timers_check_needed && !(tprev.isNone && s.timeroot.isNone)
      safe_timer_cnt := if (s.heap tp).safe then s.safe_timer_cnt - 1 else s.safe_timer_cnt }
    some (s.release tp)

/-- Find a free block that can hold the data, and the one before it. -/
def findFree (heap : Nat → GtTimer) (hdata_len : Nat) :
    Nat → Option Nat → Option Nat → Option (Option Nat × Option Nat) :=
  searchBlocks heap fun ntp => hdata_len ≤ ntp.hd_len_max

/-- Take a block off the free list, or allocate one. -/
def obtainBlock (s : TimerState) (hdata_len : Nat) : Option (TimerState × Nat) :=
  match findFree s.heap hdata_len (s.allocated + 1) none s.timefree with
  | none => none
  | some (some ntp, none) =>
    some ({ s with timefree := (s.heap ntp).next, num_timers_free := s.num_timers_free - 1 }, ntp)
  | some (some ntp, some lastntp) =>
    some ({ s.modify lastntp fun t => { t with next := (s.heap ntp).next } with
      num_timers_free := s.num_timers_free - 1 }, ntp)
  | some (none, _) =>
    let ntp := s.allocated
    some ({ s.modify ntp fun t => { t with hd_len_max := hdata_len } with
      allocated := s.allocated + 1 }, ntp)

/-- Find the first timer that does not expire before a time, and the one before it. -/
def findPlace (heap : Nat → GtTimer) (expir_time : Nat) :
    Nat → Option Nat → Option Nat → Option (Option Nat × Option Nat) :=
  searchBlocks heap fun tp => expir_time ≤ tp.expir_time

/-- Put a new timer in the queue. -/
def add_timer (s : TimerState) (atp : Nat) (tid : TID) (time_to_expir : Nat)
    (handler : Option TimerHandler) (hdata : List UInt8) (safe_timer : Bool) :
    Option (TimerState × Nat) := do
  let (s, ntp) ← obtainBlock s hdata.length
  let s := { s with
    safe_timer_cnt := if safe_timer then s.safe_timer_cnt + 1 else s.safe_timer_cnt
    starts := s.starts + 1 }
  let s := s.modify ntp fun t => { t with
    tid := tid
    handler := handler
    safe := safe_timer
    block_int := INTRPT_OK_TO_INTERRUPT
    hd_data := hdata
    expir_time := atp + time_to_expir
    start_time := atp
    started := s.starts }
  let (tp, tpp) ← findPlace s.heap (atp + time_to_expir) (s.allocated + 1) none s.timeroot
  let s := s.modify ntp fun t => { t with next := tp }
  some (s.link tpp (some ntp), ntp)

/-! ## The system timer -/

/-- Arm the system timer for a time from `curr_time` on. -/
def sys_settimer (s : TimerState) (curr_time time_to_expir : Nat) : TimerState :=
  { s with sys_timer := some ⟨curr_time, s.clock, time_to_expir⟩, timer_active := true }

/-- Cancel the system timer. -/
def sys_canc_timer (s : TimerState) : TimerState :=
  { s with sys_timer := none, timer_active := false }

section Calls

/- `timer_handler` is called with a flag that tells whether it is the operating
system's handler of the alarm signal. -/
variable (timerHandler : Bool → TimerState → Option TimerState) (env : TimerEnv)

/-- Find the first timer and start it. -/
def startFirstLoop (curr_time : Nat) (is_os_signal_handler : Bool) :
    Nat → Option Nat → TimerState → Option TimerState
  | 0, _, _ => none
  | _ + 1, none, s => some s
  | rounds + 1, some tpop, s =>
    let t := s.heap tpop
    if t.expir_time ≤ curr_time then
      if t.safe || (SAFE_FOR_TIMER_START env && s.timer_stack_count < 1 &&
          !(env.in_ext_call && IS_KNOWN_UNSAFE_TIMER_HANDLER t.handler)) then
        timerHandler is_os_signal_handler s
      else
        let s := { s.modify tpop fun t => { t with block_int := env.intrpt_ok_state } with
          deferred_timers_check_needed := true }
        startFirstLoop curr_time is_os_signal_handler rounds t.next s
    else
      some (sys_settimer { s with sys_timer_at := t.expir_time } curr_time
        (t.expir_time - curr_time))

/-- Start the system timer for the first timer in the queue that is not expired, and
handle the expired ones or have them looked at later. -/
def start_first_timer (curr_time : Nat) (is_os_signal_handler : Bool) (s : TimerState) :
    Option TimerState :=
  let s := { s with deferred_timers_check_needed := false }
  if 1 < s.timer_stack_count ∨ s.timer_in_handler then some s
  else startFirstLoop timerHandler env curr_time is_os_signal_handler (s.allocated + 1) s.timeroot s

/-- Start a timer, with signals blocked. -/
def start_timer_int (tid : TID) (time_to_expir : Nat) (handler : Option TimerHandler)
    (hdata : List UInt8) (safe_timer : Bool) (s : TimerState) : Option TimerState := do
  let at' := s.clock
  let s ← remove_timer s tid
  let s := if s.num_timers_free < GT_TIMER_EXPAND_TRIGGER ∧ s.timer_stack_count < 1 then
      gt_timers_alloc s
    else s
  let (s, newt) ← add_timer s at' tid time_to_expir handler hdata safe_timer
  if s.timeroot.map (fun a => (s.heap a).tid) = some tid ∨ s.timer_active = false ∨
      (s.heap newt).expir_time < s.sys_timer_at then
    start_first_timer timerHandler env at' false s
  else some s

/-- Whether a timer may be started in any state, and whether its handler may run in any
state. -/
def timerSafety : Option TimerHandler → Bool × Bool
  | none => (true, true)
  | some .wcs_clean_dbsync => (true, false)
  | some .wcs_stale => (true, false)
  | some .jnl_file_close_timer => (true, false)
  | some handler =>
    if env.safe_handlers.contains handler then (true, true) else (false, false)

/-- Start a timer. -/
def start_timer (tid : TID) (time_to_expir : Nat) (handler : Option TimerHandler)
    (hdata : List UInt8) (s : TimerState) : Option TimerState :=
  if env.exit_handler_active then some s
  else
    let (safe_to_add, safe_timer) := timerSafety env handler
    if !safe_to_add && !SAFE_FOR_TIMER_START env then some s
    else start_timer_int timerHandler env tid time_to_expir handler hdata safe_timer s

/-- Cancel a timer. -/
def cancel_timer (tid : TID) (s : TimerState) : Option TimerState := do
  let at' := s.clock
  let first_timer := s.timeroot.map (fun a => (s.heap a).tid) = some tid
  let s ← remove_timer s tid
  if first_timer then
    if s.timeroot.isSome then start_first_timer timerHandler env at' false s
    else if s.timer_active then some (sys_canc_timer s)
    else some s
  else some s

/-! ## Handlers -/

/-- The timer is in the queue and expired. -/
def TimerState.expired (s : TimerState) (tid : TID) : Bool :=
  match s.find tid with
  | some (some tp, _) => decide ((s.heap tp).expir_time ≤ s.clock)
  | _ => false

/-- What a handler does. -/
def runAction (s : TimerState) : HandlerAction → Option TimerState
  | .wait duration => some { s with clock := s.clock + duration }
  | .start tid time_to_expir handler hdata =>
    if s.expired tid then none else start_timer timerHandler env tid time_to_expir handler hdata s
  | .cancel tid => if s.expired tid then none else cancel_timer timerHandler env tid s
  | .alarm => timerHandler true s

/-- Call a handler: it does what the script says next. -/
def callHandler (s : TimerState) : Option TimerState :=
  match s.script with
  | [] => none
  | actions :: script =>
    actions.foldlM (runAction timerHandler env)
      { s with script := script, timer_in_handler := true }

/-- Call the handler of a timer, if it has one. The time is read again after a handler
that is not safe. -/
def dispatchTimer (tpop at' : Nat) (s : TimerState) : Option (TimerState × Nat) :=
  match (s.heap tpop).handler with
  | none => some (s, at')
  | some _ => do
    let s ← callHandler timerHandler env s
    let s := { s with timer_in_handler := false }
    some (s, if !(s.heap tpop).safe then s.clock else at')

/-- The loop of `timer_handler` over the queue. `tpop_prev` is the last timer it left in
the queue. The result has the time as last read and the number of timers left. -/
def popLoop (is_os_signal_handler : Bool) :
    Nat → Option Nat → Option Nat → Nat → Nat → TimerState → Option (TimerState × Nat × Nat)
  | 0, _, _, _, _, _ => none
  | _ + 1, none, _, at', timer_defer_cnt, s => some (s, at', timer_defer_cnt)
  | rounds + 1, some tpop, tpop_prev, at', timer_defer_cnt, s =>
    let t := s.heap tpop
    if at' < t.expir_time then some (s, at', timer_defer_cnt)
    else if t.safe || (SAFE_FOR_TIMER_POP env &&
        ((!(env.in_os_signal_handler || is_os_signal_handler) && !env.in_ext_call) ||
          !IS_KNOWN_UNSAFE_TIMER_HANDLER t.handler)) then do
      let (s, at') ← dispatchTimer timerHandler env tpop at' (s.takeOut tpop_prev tpop)
      let s := s.release tpop
      popLoop is_os_signal_handler rounds (s.after tpop_prev) tpop_prev at' timer_defer_cnt s
    else
      let s := s.modify tpop fun t => { t with block_int := env.intrpt_ok_state }
      if s.safe_timer_cnt = 0 ∧ ¬ (env.in_ext_call ∧ IS_KNOWN_UNSAFE_TIMER_HANDLER t.handler) then
        some (s, at', timer_defer_cnt + 1)
      else
        popLoop is_os_signal_handler rounds t.next (some tpop) at' (timer_defer_cnt + 1) s

/-- `timer_handler` when another one is running. -/
def bailOut (s : TimerState) : TimerState := { s with deferred_timers_check_needed := true }

/-- The operating system's handler is called when the system timer expires. -/
def TimerState.signalled (s : TimerState) (is_os_signal_handler : Bool) : TimerState :=
  { s with
    timer_active := s.timer_active && !is_os_signal_handler
    sys_timer := if is_os_signal_handler then none else s.sys_timer }

/-- What `timer_handler` does with the timers that stay in the queue. -/
def restartTimers (is_os_signal_handler : Bool) (at' timer_defer_cnt : Nat) (s : TimerState) :
    Option TimerState :=
  if SAFE_FOR_TIMER_POP env || 0 < s.safe_timer_cnt then
    start_first_timer timerHandler env at' is_os_signal_handler s
  else if s.timeroot.isSome || 0 < timer_defer_cnt then
    some { s with deferred_timers_check_needed := true }
  else some s

/-- `timer_handler`, given itself for the calls inside. -/
def timerHandlerBody (rounds : Nat) (is_os_signal_handler : Bool) (s : TimerState) :
    Option TimerState :=
  let s := s.signalled is_os_signal_handler
  if 1 < s.timer_stack_count + 1 then some (bailOut s)
  else do
    let s := { s with
      timer_stack_count := s.timer_stack_count + 1
      deferred_timers_check_needed := false }
    let (s, at', timer_defer_cnt) ←
      popLoop timerHandler env is_os_signal_handler rounds s.timeroot none s.clock 0 s
    let s ← restartTimers timerHandler env is_os_signal_handler at' timer_defer_cnt s
    some { s with timer_stack_count := s.timer_stack_count - 1 }

end Calls

/-- Handle expired timers. `depth` bounds the nesting of calls, `rounds` the loops over
the queue. -/
def timer_handler (env : TimerEnv) (rounds : Nat) : Nat → Bool → TimerState → Option TimerState
  | 0 => fun _ _ => none
  | depth + 1 => timerHandlerBody (timer_handler env rounds depth) env rounds

end Ydb
