/-! The `IoState` of a `Channel` and the operations that wake its waiters. An operation
that passes handles to `Scheduler::schedule` returns them in that order. -/
namespace Nitrocoro.Io

/-- `Channel` with the handles `H` of the coroutines that wait on it. -/
structure Channel (H : Type) where
  readable : Bool := false
  writable : Bool := true
  errored : Bool := false
  readableWaiter : Option H := none
  writableWaiter : Option H := none
  readCanceled : Bool := false
  writeCanceled : Bool := false
  /-- `events_ & EPOLLIN` and `events_ & EPOLLOUT`. -/
  reading : Bool := false
  writing : Bool := false
  deriving DecidableEq

/-- The bits of an epoll event that `handleIoEvents` looks at; `input` is EPOLLIN or EPOLLHUP. -/
structure Events where
  error : Bool := false
  input : Bool := false
  output : Bool := false
  deriving DecidableEq

namespace Channel
variable {H : Type}

def wakeReader (ch : Channel H) : Channel H × List H :=
  ({ ch with readableWaiter := none }, ch.readableWaiter.toList)

def wakeWriter (ch : Channel H) : Channel H × List H :=
  ({ ch with writableWaiter := none }, ch.writableWaiter.toList)

def handleIoEvents (ch : Channel H) (ev : Events) : Channel H × List H :=
  let (ch, onError) :=
    if ev.error then
      let (ch, reader) := { ch with errored := true }.wakeReader
      let (ch, writer) := ch.wakeWriter
      (ch, reader ++ writer)
    else (ch, [])
  let (ch, onInput) := if ev.input then { ch with readable := true }.wakeReader else (ch, [])
  let (ch, onOutput) := if ev.output then { ch with writable := true }.wakeWriter else (ch, [])
  (ch, onError ++ onInput ++ onOutput)

def cancelRead (ch : Channel H) : Channel H × List H :=
  match ch.readableWaiter with
  | none => (ch, [])
  | some _ => { ch with readCanceled := true }.wakeReader

def cancelWrite (ch : Channel H) : Channel H × List H :=
  match ch.writableWaiter with
  | none => (ch, [])
  | some _ => { ch with writeCanceled := true }.wakeWriter

def cancelAll (ch : Channel H) : Channel H × List H :=
  let (ch, reader) := ch.cancelRead
  let (ch, writer) := ch.cancelWrite
  (ch, reader ++ writer)

def disableAll (ch : Channel H) : Channel H :=
  { ch with reading := false, writing := false }

end Channel
end Nitrocoro.Io
