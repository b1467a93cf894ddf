import Nyx.CreateDirAll
import Nyx.Text

/-! `nyx_core::hash`: the BLAKE3 hash of a buffer, and the same hash of a file that is read
through a buffer of fixed size, used over and over. -/
namespace Nyx.Hash
open FileTree Interaction Text
open CreateDirAll (IoError)

structure Blake3Hash where
  bytes : Vector UInt8 32
  deriving DecidableEq

/-- The `blake3` crate: a hasher that is fed piece by piece, and the hash of a whole input. -/
structure Blake3 (H : Type) where
  new : H
  update : H → Bytes → H
  finalize : H → Vector UInt8 32
  hash : Bytes → Vector UInt8 32

/-- What is fed counts, not how it is cut up. -/
structure Blake3.Lawful {H : Type} (B : Blake3 H) : Prop where
  update_append : ∀ h a b, B.update (B.update h a) b = B.update h (a ++ b)
  update_nil : ∀ h, B.update h [] = h
  hash_eq : ∀ d, B.hash d = B.finalize (B.update B.new d)

/-- `File::open`, and `Read::read` into a buffer. -/
inductive Request
  | openFile (path : Path OsStr)
  | read (len : ℕ)
  deriving DecidableEq

/-- What a read filled the front of the buffer with; nothing at the end of the file. -/
inductive Reply
  | opened
  | filled (b : Bytes)
  | err (e : ErrorKind)
  deriving DecidableEq

/-- `buf` is what the buffer holds, stale bytes of earlier reads included. -/
inductive Stage (H : Type)
  | opening
  | reading (hasher : H) (buf : Bytes)
  | done (r : Except IoError Blake3Hash)

def bufLen : ℕ := 64 * 1024

section HashFile
variable {H : Type} (B : Blake3 H)

def hashBytes (data : Bytes) : Blake3Hash := ⟨B.hash data⟩

/-- The loop body, once n bytes of the buffer are new. -/
def absorb (hasher : H) (buf : Bytes) (n : ℕ) : Stage H :=
  if n = 0 then .done (.ok ⟨B.finalize hasher⟩) else .reading (B.update hasher (buf.take n)) buf

def issue (path : Path OsStr) : Stage H → Option Request
  | .opening => some (.openFile path)
  | .reading _ buf => some (.read buf.length)
  | .done _ => none

def resume : Stage H → Reply → Stage H
  | .opening, .opened => .reading B.new (List.replicate bufLen 0)
  | .opening, .err e => .done (.error (.os e))
  | .reading hasher buf, .filled b => absorb B hasher (b ++ buf.drop b.length) b.length
  | .reading _ _, .err e => .done (.error (.os e))
  | s, _ => s

def program (path : Path OsStr) : Program Request Reply (Stage H) := ⟨issue path, resume B⟩

/-- Every request is replied to as the script says. -/
def scripted : Kernel Reply Request Reply Unit := fun r _ _ => (r, ())

/-- `hash_file` where its requests are replied to in this way, one after the other. -/
def hashFile (path : Path OsStr) (replies : List Reply) :
    Config Reply Request Reply Unit (Stage H) :=
  run (program B path) scripted ⟨(), .opening, []⟩ replies

end HashFile

/-- Reads that go on: each fills some of the buffer. -/
def Reading (chunks : List Bytes) : Prop := ∀ c ∈ chunks, 0 < c.length ∧ c.length ≤ bufLen

/-- The replies deliver a file: it is opened, and read chunk by chunk to its end. -/
def Delivers (d : Bytes) (replies : List Reply) : Prop :=
  ∃ chunks, Reading chunks ∧ chunks.flatten = d ∧
    replies = .opened :: chunks.map Reply.filled ++ [.filled []]

section Stream
variable {H : Type} {B : Blake3 H} (path : Path OsStr)

/-- One read: the bytes that are new are hashed, whatever the buffer held before. -/
theorem advance_filled (h : H) (buf : Bytes) (log : List (Request × Reply × Reply)) {b : Bytes}
    (hb : 0 < b.length) :
    advance (program B path) scripted ⟨(), .reading h buf, log⟩ (.filled b) =
      ⟨(), .reading (B.update h b) (b ++ buf.drop b.length),
        (.read buf.length, .filled b, .filled b) :: log⟩ := by
  have htake : (b ++ buf.drop b.length).take b.length = b := List.take_left
  simp [advance, program, issue, resume, scripted, absorb, hb.ne', htake]

/-- What a run of reads has hashed is their chunks put together, and the buffer keeps its
length, so every read may fill all of it. -/
theorem run_reading (hB : B.Lawful) {chunks : List Bytes} (hc : Reading chunks) (h : H)
    {buf : Bytes} (hbuf : buf.length = bufLen) (log : List (Request × Reply × Reply)) :
    ∃ buf' log', buf'.length = bufLen ∧
      run (program B path) scripted ⟨(), .reading h buf, log⟩ (chunks.map .filled) =
        ⟨(), .reading (B.update h chunks.flatten) buf', log'⟩ := by
  induction chunks generalizing h buf log with
  | nil => exact ⟨buf, log, hbuf, by simp [hB.update_nil]⟩
  | cons b chunks ih =>
    obtain ⟨hpos, hle⟩ := hc b List.mem_cons_self
    have hlen : (b ++ buf.drop b.length).length = bufLen := by
      rw [List.length_append, List.length_drop, hbuf]
      omega
    obtain ⟨buf', log', hbuf', hrun⟩ := ih (fun c hx => hc c (List.mem_cons_of_mem _ hx))
      (B.update h b) hlen ((.read buf.length, .filled b, .filled b) :: log)
    refine ⟨buf', log', hbuf', ?_⟩
    rw [List.map_cons, run_cons, advance_filled path h buf log hpos, hrun, hB.update_append,
      List.flatten_cons]

theorem hashFile_reading (hB : B.Lawful) {chunks : List Bytes} (hc : Reading chunks)
    (replies : List Reply) : ∃ buf log, hashFile B path (.opened :: chunks.map .filled ++ replies) =
      run (program B path) scripted
        ⟨(), .reading (B.update B.new chunks.flatten) buf, log⟩ replies := by
  obtain ⟨buf, log, -, hrun⟩ := run_reading path hB hc B.new
    (List.length_replicate (n := bufLen) (a := (0 : UInt8)))
    [(.openFile path, .opened, .opened)]
  refine ⟨buf, log, ?_⟩
  rw [hashFile, List.cons_append, run_cons, run_append]
  exact congrArg (run _ _ · replies) hrun

theorem hashFile_delivered (hB : B.Lawful) {d : Bytes} {replies : List Reply}
    (hd : Delivers d replies) :
    (hashFile B path replies).stage = .done (.ok (hashBytes B d)) := by
  obtain ⟨chunks, hc, rfl, rfl⟩ := hd
  obtain ⟨buf, log, hrun⟩ := hashFile_reading path hB hc [.filled []]
  rw [hrun, hashBytes, hB.hash_eq]
  rfl

theorem hashFile_open_failed (e : ErrorKind) (replies : List Reply) :
    (hashFile B path (.err e :: replies)).stage = .done (.error (.os e)) := by
  rw [hashFile, run_cons]
  exact congrArg Config.stage (run_returned rfl replies)

theorem hashFile_read_failed (hB : B.Lawful) {chunks : List Bytes} (hc : Reading chunks)
    (e : ErrorKind) (replies : List Reply) :
    (hashFile B path (.opened :: chunks.map .filled ++ .err e :: replies)).stage =
      .done (.error (.os e)) := by
  obtain ⟨buf, log, hrun⟩ := hashFile_reading path hB hc (.err e :: replies)
  rw [hrun, run_cons]
  exact congrArg Config.stage (run_returned rfl replies)

end Stream

/-- A file that is delivered has the hash of its content, however its reads were cut up; and
where opening it or one of the reads fails, the error comes back and no hash. -/
theorem hashFile_streams {H : Type} (B : Blake3 H) (hB : B.Lawful) (path : Path OsStr) :
    (∀ d replies, Delivers d replies →
      (hashFile B path replies).stage = .done (.ok (hashBytes B d))) ∧
    (∀ d replies replies', Delivers d replies → Delivers d replies' →
      (hashFile B path replies).stage = (hashFile B path replies').stage) ∧
    (∀ e replies, (hashFile B path (.err e :: replies)).stage = .done (.error (.os e))) ∧
    ∀ chunks e replies, Reading chunks →
      (hashFile B path (.opened :: chunks.map .filled ++ .err e :: replies)).stage =
        .done (.error (.os e)) := by
  refine ⟨fun d replies hd => hashFile_delivered path hB hd, fun d replies replies' hd hd' => ?_,
    hashFile_open_failed path, fun chunks e replies hc => hashFile_read_failed path hB hc e replies⟩
  rw [hashFile_delivered path hB hd, hashFile_delivered path hB hd']

/-- The BLAKE3 hash of the three bytes `abc`. -/
def abcHash : Vector UInt8 32 :=
  #v[0x64, 0x37, 0xb3, 0xac, 0x38, 0x46, 0x51, 0x33, 0xff, 0xb6, 0x3b, 0x75, 0x27, 0x3a, 0x8d, 0xb5,
    0x48, 0xc5, 0x58, 0x46, 0x5d, 0x79, 0xdb, 0x03, 0xfd, 0x35, 0x9c, 0x6c, 0xd5, 0xbd, 0x9d, 0x85]

/-- A hasher that keeps all it is fed, and knows the hash of one input. -/
def table : Blake3 Bytes where
  new := []
  update h b := h ++ b
  finalize h := if h = bytes "abc" then abcHash else Vector.replicate 32 0
  hash d := if d = bytes "abc" then abcHash else Vector.replicate 32 0

theorem table_lawful : table.Lawful where
  update_append h a b := List.append_assoc h a b
  update_nil h := List.append_nil h
  hash_eq _ := rfl

def abcPath : Path OsStr := ⟨true, [.normal (bytes "abc")], false⟩

theorem hashFile_streams_abc :
    (hashFile table abcPath [.opened, .filled (bytes "a"), .filled (bytes "bc"),
        .filled []]).stage = .done (.ok ⟨abcHash⟩) ∧
      (hashFile table abcPath [.opened, .filled (bytes "abc"), .filled []]).stage =
        (hashFile table abcPath [.opened, .filled (bytes "ab"), .filled (bytes "c"),
          .filled []]).stage ∧
      (hashFile table abcPath [.opened, .filled (bytes "a"), .err .other]).stage =
        .done (.error (.os .other)) := by
  obtain ⟨hok, hsame, -, hfail⟩ := hashFile_streams table table_lawful abcPath
  have hdelivers : ∀ a b, Reading [bytes a, bytes b] → bytes a ++ bytes b = bytes "abc" →
      Delivers (bytes "abc") [.opened, .filled (bytes a), .filled (bytes b), .filled []] :=
    fun a b hr hd => ⟨[bytes a, bytes b], hr, by simpa using hd, rfl⟩
  have hone : Delivers (bytes "abc") [.opened, .filled (bytes "abc"), .filled []] :=
    ⟨[bytes "abc"], by unfold Reading; decide +kernel, by decide +kernel, rfl⟩
  refine ⟨?_, ?_, ?_⟩
  · exact hok (bytes "abc") _ (hdelivers "a" "bc" (by unfold Reading; decide +kernel)
      (by decide +kernel))
  · exact hsame (bytes "abc") _ _ hone (hdelivers "ab" "c" (by unfold Reading; decide +kernel)
      (by decide +kernel))
  · exact hfail [bytes "a"] .other [] (by unfold Reading; decide +kernel)

end Nyx.Hash
