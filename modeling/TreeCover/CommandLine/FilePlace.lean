import TreeCover.Session.Error

/-!
# Places of files

A small Unix system as a table: its directories, its links, its devices, and what a process can
read about itself. A path is walked name by name. Each name but the last has to lead to a
directory, a link is followed as soon as it is met, and a name longer than a directory can hold
ends the walk even if nothing could have been there.

The system is the same for every run: nothing in it depends on what was written before.
-/

namespace TreeCover

/-- Where a path leads: the names from the root. -/
abbrev FilePlace := List String

/-! ## Files -/

/-- What is read from a file. -/
inductive Source where
  | text (content : String)
  /-- All that stands in standard input. -/
  | input
deriving DecidableEq, Repr

/-- What becomes of a text that is written to a file. -/
inductive Sink where
  | nowhere | output | errors
deriving DecidableEq, Repr

/-- A file by what reading and writing it do. -/
structure File where
  source : Except FileFault Source
  sink : Except FileFault Sink

namespace File

/-- Holds a text and takes any other. -/
def plain (content : String) : File := ⟨.ok (.text content), .ok .nowhere⟩

/-- Holds a text that its system keeps, and refuses any other. -/
def report (content : String) : File := ⟨.ok (.text content), .error .invalidArgument⟩

/-- Holds figures on the whole machine, which no process can set. -/
def figures (content : String) : File := ⟨.ok (.text content), .error .inputOutput⟩

/-- Neither gives nor takes anything. -/
def failing (fault : FileFault) : File := ⟨.error fault, .error fault⟩

/-- A program while it runs. -/
def program : File := ⟨.error .notText, .error .busyProgram⟩

end File

/-- What a path can lead to. -/
inductive Entry where
  | directory
  | file (f : File)

/-! ## The table -/

namespace FilePlace

/-- The places of some names in a directory. -/
def inside (p : FilePlace) (names : List String) : List FilePlace := names.map (p ++ [·])

def directories : List FilePlace :=
  [] :: inside [] ["boot", "dev", "etc", "home", "media", "mnt", "opt", "proc", "root", "run",
      "srv", "sys", "tmp", "usr", "var"] ++
    inside ["dev"] ["pts", "shm"] ++
    inside ["proc"] ["1", "bus", "driver", "fs", "irq", "self", "sys", "sysvipc", "tty"] ++
    inside ["proc", "self"] ["attr", "fd", "fdinfo", "map_files", "net", "ns", "task"] ++
    inside ["sys"] ["block", "bus", "class", "dev", "devices", "fs", "kernel", "module"] ++
    inside ["usr"] ["bin", "include", "lib", "lib64", "local", "sbin", "share"] ++
    inside ["usr", "local"] ["bin", "lib"] ++
    inside ["var"] ["lib", "log", "tmp"]

def workingDirectory : FilePlace := ["tmp"]

/-- Second names of places. A thread's own directory is taken for that of its process. -/
def links : List (FilePlace × FilePlace) :=
  [(["bin"], ["usr", "bin"]), (["lib"], ["usr", "lib"]), (["lib64"], ["usr", "lib64"]),
    (["sbin"], ["usr", "sbin"]), (["var", "run"], ["run"]),
    (["dev", "fd"], ["proc", "self", "fd"]), (["dev", "stdin"], ["proc", "self", "fd", "0"]),
    (["dev", "stdout"], ["proc", "self", "fd", "1"]),
    (["dev", "stderr"], ["proc", "self", "fd", "2"]),
    (["proc", "mounts"], ["proc", "self", "mounts"]), (["proc", "net"], ["proc", "self", "net"]),
    (["proc", "thread-self"], ["proc", "self"]), (["proc", "self", "cwd"], workingDirectory),
    (["proc", "self", "root"], [])]

/-- A link never leads to another one, so following once is enough. -/
theorem lookup_links_target : ∀ l ∈ links, links.lookup l.2 = none := by decide

/-- The devices. Those that never run dry have nothing to read. -/
def devices : List (String × File) :=
  [("null", .plain ""), ("zero", .plain ""), ("random", .plain ""), ("urandom", .plain ""),
    ("full", ⟨.ok (.text ""), .error .noSpace⟩), ("tty", .failing .noDevice)]

/-- The channels of the process, by their numbers. -/
def channels : List (String × File) :=
  [("0", ⟨.ok .input, .ok .nowhere⟩), ("1", ⟨.ok (.text ""), .ok .output⟩),
    ("2", ⟨.ok (.text ""), .ok .errors⟩)]

/-- The headings of a process's status before the one with a slash in its figures. -/
def statusHeadings : List String :=
  ["Umask", "State", "Tgid", "Ngid", "Pid", "PPid", "TracerPid", "Uid", "Gid", "FDSize", "Groups",
    "NStgid", "NSpid", "NSpgid", "NSsid", "Kthread", "VmPeak", "VmSize", "VmLck", "VmPin", "VmHWM",
    "VmRSS", "RssAnon", "RssFile", "RssShmem", "VmData", "VmStk", "VmExe", "VmLib", "VmPTE",
    "VmSwap", "HugetlbPages", "CoreDumping", "THP_enabled", "untag_mask", "Threads"]

def status : String :=
  "Name:\tbursc\n" ++ String.join (statusHeadings.map (· ++ ":\t0\n")) ++ "SigQ:\t0/0\n"

/-- Files of the process that hold one number or a few. -/
def counters : List String :=
  ["coredump_filter", "loginuid", "oom_adj", "oom_score", "oom_score_adj", "personality",
    "schedstat", "sessionid", "statm", "timerslack_ns", "wchan"]

/-- What the process can read about itself. -/
def processFiles : List (String × File) :=
  [("arch_status", .report "AVX512_elapsed_ms:\t0\n"),
    ("autogroup", .report "/autogroup-1 nice 0\n"),
    ("auxv", ⟨.error .notText, .error .invalidArgument⟩),
    ("cgroup", .report "0::/\n"),
    ("clear_refs", .failing .invalidArgument),
    ("cmdline", .report "/usr/bin/bursc\x00"),
    ("comm", .plain "bursc\n"),
    ("cpuset", .report "/\n"),
    ("environ", .report "PATH=/usr/bin\x00"),
    ("exe", .program),
    ("gid_map", .report "0 0 4294967295\n"),
    ("io", .report "rchar: 0\n"),
    ("limits", .report "Limit Soft Limit Hard Limit Units\n"),
    ("maps", .report "0 r--p\n"),
    ("mem", .failing .inputOutput),
    ("mountinfo", .report "1 1 0:1 / / rw\n"),
    ("mounts", .report "none / none rw 0 0\n"),
    ("mountstats", .report "device none mounted on / with fstype none\n"),
    ("projid_map", .report "0 0 4294967295\n"),
    ("sched", .report "bursc (1, #threads: 1)\n"),
    ("setgroups", .report "allow\n"),
    ("smaps", .report "0 r--p\n"),
    ("stack", .report "[<0>]\n"),
    ("stat", .report "1 (bursc) R\n"),
    ("status", .report status),
    ("syscall", .report "running\n"),
    ("timers", .report ""),
    ("uid_map", .report "0 0 4294967295\n")] ++
  counters.map (·, .report "0\n")

/-- What can be read about the machine. -/
def machineFiles : List (String × File) :=
  [("cmdline", .figures "root=/dev/vda\n"), ("cpuinfo", .figures "processor\t: 0\n"),
    ("devices", .figures "Character devices:\n  1 mem\n  4 /dev/vc/0\n"),
    ("filesystems", .figures "nodev\tproc\n"), ("loadavg", .figures "0.00 0.00 0.00 1/1 1\n"),
    ("meminfo", .figures "MemTotal: 0 kB\n"), ("stat", .figures "cpu 0 0 0 0\n"),
    ("swaps", .figures "Filename Type Size Used Priority\n"), ("uptime", .figures "0.00 0.00\n"),
    ("version", .figures "Linux version 6.18.44\n")]

/-- Settings that every process can read. -/
def settingsFiles : List (String × File) :=
  [("hostname", .plain "localhost\n"), ("hosts", .plain "127.0.0.1\tlocalhost\n"),
    ("os-release", .plain "PRETTY_NAME=\"Linux\"\n"),
    ("passwd", .plain "root:x:0:0:root:/root:/bin/sh\n")]

/-- The file at a place. -/
def file? : FilePlace → Option File
  | ["dev", name] => devices.lookup name
  | ["etc", name] => settingsFiles.lookup name
  | ["proc", name] => machineFiles.lookup name
  | ["proc", "self", name] => processFiles.lookup name
  | ["proc", "self", "fd", name] => channels.lookup name
  | ["proc", "self", "fdinfo", name] => (channels.lookup name).map fun _ ↦ .report "pos:\t0\n"
  | ["usr", "bin", "sh"] => some .program
  | _ => none

/-- What is at a place. -/
def lookup? (p : FilePlace) : Option Entry :=
  if p ∈ directories then some .directory else p.file?.map .file

/-! ## Walking -/

/-- The most bytes of a name in a directory that stores its names. -/
def nameLimit : Nat := 255

/-- The most bytes of a path. -/
def pathLimit : Nat := 4095

/-- What creating a file at a place meets with. Directories whose names the system makes up take no
new ones. -/
def creation (p : FilePlace) : Except FileFault Unit :=
  match p.head? with
  | some "proc" => .error .notFound
  | some "sys" => .error .permissionDenied
  | _ => .ok ()

/-- Whether a directory stores its names. -/
def storesNames (p : FilePlace) : Bool := p.head? ≠ some "proc" ∧ p.head? ≠ some "sys"

/-- Goes to a name in a directory. -/
def step (p : FilePlace) (name : String) : Except FileFault FilePlace :=
  if name = "" ∨ name = "." then .ok p
  else if name = ".." then .ok p.dropLast
  else if p.storesNames ∧ nameLimit < name.utf8ByteSize then .error .nameTooLong
  else .ok ((links.lookup (p ++ [name])).getD (p ++ [name]))

/-- Refuses what is no directory. -/
def enter (p : FilePlace) : Except FileFault Unit :=
  match p.lookup? with
  | some .directory => .ok ()
  | some (.file _) => .error .notDirectory
  | none => .error .notFound

/-- Goes along names, each of which is looked for in a directory. -/
def walk (p : FilePlace) : List String → Except FileFault FilePlace
  | [] => .ok p
  | name :: names => do
    p.enter
    walk (← p.step name) names

/-- The names on a path and the directory that the first is looked for in: the root if a slash
stands in front. -/
def ofPath (path : String) : Except FileFault (FilePlace × List String) :=
  if path = "" then .error .notFound
  else if pathLimit < path.utf8ByteSize then .error .nameTooLong
  else match path.splitOn "/" with
    | "" :: names => .ok ([], names)
    | names => .ok (workingDirectory, names)

/-- The place of a file to read. -/
def toRead (path : String) : Except FileFault FilePlace := do
  let (p, names) ← ofPath path
  walk p names

/-- The place of a file to write. With a slash at its end a path can only mean a directory, and the
last name is not looked for. -/
def toWrite (path : String) : Except FileFault FilePlace := do
  let (p, names) ← ofPath path
  let kept := (names.reverse.dropWhile (· == "")).reverse
  let parent ← walk p kept.dropLast
  parent.enter
  if kept.length < names.length then throw .isDirectory
  walk parent (kept.drop (kept.length - 1))

end FilePlace

end TreeCover
