import ProcessMonitor.Machine.Posix.Files
import ProcessMonitor.Machine.Posix.Numeral

/-! # The configuration file of the server

`vts_config.c` reads the file line by line and tries every line against nine tags, each by a search for the opening
tag and then for the closing one. A field of type `char[]` is the string it holds.
-/

namespace ProcessMonitor.Model.Vts

open Machine Machine.Posix

/-- `vts_config_t` -/
structure VtsConfig where
  bindAddr : Bytes
  port : ℕ
  udpPort : ℕ
  acceptBacklog : ℤ
  ioTimeoutMs : ℤ
  clientPoolSize : ℤ
  retryMax : ℤ
  retryBackoffMs : ℤ
  dedupTtlMs : ℤ
  logPath : Bytes
  dedupWarmFile : Bytes
deriving DecidableEq, Repr

def vtsConfigDefault : VtsConfig where
  bindAddr := literal "0.0.0.0"
  port := 9000
  udpPort := 0
  acceptBacklog := 128
  ioTimeoutMs := 3000
  clientPoolSize := 8
  retryMax := 3
  retryBackoffMs := 50
  dedupTtlMs := 60000
  logPath := literal "logs/vts.log"
  dedupWarmFile := []

/-- The opening tag, and the closing one. -/
def openTag (tag : Bytes) : Bytes := literal "<" ++ tag ++ literal ">"

def closeTag (tag : Bytes) : Bytes := literal "</" ++ tag ++ literal ">"

/-- The string left in `dst`, if the line has the tag. -/
def parseText (line tag : Bytes) (dstsz : ℕ) : Option Bytes := do
  let opening := (snprintf 64 (openTag tag)).1
  let closing := (snprintf 64 (closeTag tag)).1
  let p ← strstr line opening
  let p := p.drop opening.length
  let q ← strstr p closing
  let n := p.length - q.length
  some (p.take (if dstsz ≤ n then dstsz - 1 else n))

def parseInt (line tag : Bytes) : Option ℤ := (parseText line tag 64).map atoi

/-- `(unsigned short)atoi(buf)` -/
def parseU16 (line tag : Bytes) : Option ℕ := (parseText line tag 64).map fun buf => (atoi buf % 2 ^ 16).toNat

/-- The body of the loop: every tag has its own field. -/
def parseLine (out : VtsConfig) (line : Bytes) : VtsConfig :=
  { out with
    bindAddr := (parseText line (literal "bind_addr") 64).getD out.bindAddr
    port := (parseU16 line (literal "port")).getD out.port
    acceptBacklog := (parseInt line (literal "accept_backlog")).getD out.acceptBacklog
    ioTimeoutMs := (parseInt line (literal "io_timeout_ms")).getD out.ioTimeoutMs
    clientPoolSize := (parseInt line (literal "client_pool_size")).getD out.clientPoolSize
    retryMax := (parseInt line (literal "retry_max")).getD out.retryMax
    retryBackoffMs := (parseInt line (literal "retry_backoff_ms")).getD out.retryBackoffMs
    dedupTtlMs := (parseInt line (literal "dedup_ttl_ms")).getD out.dedupTtlMs
    logPath := (parseText line (literal "log_path") 256).getD out.logPath }

/-- The loop; a line is a string, which ends at a NUL if there is one in the file. -/
def readConfig : ℕ → Bytes → VtsConfig → Option VtsConfig
  | 0, stream, out => if stream = [] then some out else none
  | rounds + 1, stream, out =>
    match fgets 512 stream with
    | none => some out
    | some (line, stream) => readConfig rounds stream (parseLine out (cstr line))

/-- The return value and `*out`. A null pointer is `none`; of a path, `some none` is one that cannot be opened. -/
def vtsConfigLoad (path : Option (Option Bytes)) (out : Option VtsConfig) : Option (ℤ × Option VtsConfig) :=
  match out, path with
  | none, _ => some (-2, none)
  | some _, none => some (0, some vtsConfigDefault)
  | some _, some none => some (-3, some vtsConfigDefault)
  | some _, some (some file) => (readConfig file.length file vtsConfigDefault).map fun out => (0, some out)

end ProcessMonitor.Model.Vts
