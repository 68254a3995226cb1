import PiKernel.Logging.Device

/-!
# `log.c`

The functions of `kern/log.c`, as programs over the block device.  A buffer is
named by the number of the block it caches.
-/

namespace PiKernel.Logging

open PiKernel.Conc
open PiKernel.Conc.Prog (perform)

/-- Copy committed blocks from log to their home location. -/
def installTrans : Prog Act Unit := do
  let log ← perform .readLog
  (List.range log.lh.n).forM fun tail => do
    let log ← perform .readLog
    let lbuf := log.start + tail + 1
    let dbuf := log.lh.block tail
    perform (.bread lbuf)
    perform (.bread dbuf)
    let data ← perform (.load lbuf)
    perform (.store dbuf data)
    perform (.bwrite dbuf)
    perform (.brelse lbuf)
    perform (.brelse dbuf)

/-- Read the log header from disk into the in-memory log header. -/
def readHead : Prog Act Unit := do
  let log ← perform .readLog
  perform (.bread log.start)
  let data ← perform (.load log.start)
  perform (.setHeader (LogHeader.decode data))
  perform (.brelse log.start)

/-- Write in-memory log header to disk. -/
def writeHead : Prog Act Unit := do
  let log ← perform .readLog
  perform (.bread log.start)
  let data ← perform (.load log.start)
  perform (.store log.start (log.lh.encode data))
  perform (.bwrite log.start)
  perform (.brelse log.start)

def recoverFromLog : Prog Act Unit := do
  readHead
  installTrans
  perform .clearHeader
  writeHead

/-- Copy modified blocks from cache to log. -/
def writeLog : Prog Act Unit := do
  let log ← perform .readLog
  (List.range log.lh.n).forM fun tail => do
    let log ← perform .readLog
    let toBuf := log.start + tail + 1
    let fromBuf := log.lh.block tail
    perform (.bread toBuf)
    perform (.bread fromBuf)
    let data ← perform (.load fromBuf)
    perform (.store toBuf data)
    perform (.bwrite toBuf)
    perform (.brelse fromBuf)
    perform (.brelse toBuf)

def commit : Prog Act Unit := do
  let log ← perform .readLog
  if log.lh.n > 0 then
    writeLog
    writeHead
    installTrans
    perform .clearHeader
    writeHead

/-- Called at the start of each FS system call. -/
def beginOp : Prog Act Unit :=
  perform .beginOp

/-- Called at the end of each FS system call. -/
def endOp : Prog Act Unit := do
  match ← perform .endOp with
  | none => .panic "end_op: log.committing\n"
  | some doCommit =>
      if doCommit then
        commit
        perform .endCommit

/-- The space test reads `struct log` before `log.lock` is taken. -/
def logWrite (b : Nat) : Prog Act Unit := do
  let log ← perform .readLog
  if log.tooBig then
    .panic "log_write: too big a transaction\n"
  else
    perform (.absorb b)

end PiKernel.Logging
