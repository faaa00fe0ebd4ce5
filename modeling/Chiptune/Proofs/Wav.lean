import Mathlib.Algebra.Group.Nat.Defs
import Chiptune.Wav

/-!
# WAV files read back

A WAV file carries the bytes that are written without a header, and says what they are.

* `number`: the number that bytes hold, the least first. It reads what `littleEndian` writes, as
  far as the bytes reach (`number_littleEndian`).
* `Fields.of?`: what a file says about itself, read at the places where the format has it.
  `Fields.of?_header`: the header says what is so.
* `write`: a file that is written sample by sample, behind room for its header. It becomes the same
  file (`write_eq`).
* `encode?_readBack`: a file in the range of the format gives back its rate and its samples.
-/

namespace Chiptune.Wav

/-! ## Numbers -/

/-- The number that bytes hold, the least first. -/
def number : List UInt8 → Nat
  | [] => 0
  | byte :: bytes => byte.toNat + 256 * number bytes

theorem length_littleEndian (count n : Nat) : (littleEndian count n).length = count := by
  induction count generalizing n with
  | zero => rfl
  | succ count ih => simp [littleEndian, ih]

theorem number_littleEndian {count n : Nat} (h : n < 256 ^ count) :
    number (littleEndian count n) = n := by
  induction count generalizing n with
  | zero =>
    have zero : n = 0 := by simpa using h
    rw [zero]
    rfl
  | succ count ih =>
    have small : n / 256 < 256 ^ count := by
      rw [Nat.pow_succ] at h
      exact Nat.div_lt_of_lt_mul (by omega)
    rw [littleEndian, number, ih small, UInt8.toNat_ofNat']
    omega

/-! ## Headers -/

/-- What a file says about itself. -/
structure Fields where
  /-- How many bytes follow this number. -/
  riffSize : Nat
  /-- How many bytes describe the samples. -/
  formatSize : Nat
  /-- How samples are coded; one is for plain whole numbers. -/
  coding : Nat
  channels : Nat
  rate : Nat
  /-- Bytes per second. -/
  byteRate : Nat
  blockSize : Nat
  bits : Nat
  /-- How many bytes the samples take. -/
  dataSize : Nat
deriving DecidableEq

/-- The bytes of a file from `start` on, at most `count` of them. -/
def part (start count : Nat) (file : List UInt8) : List UInt8 := (file.drop start).take count

/-- What a file says about itself, if all of its tags are there. -/
def Fields.of? (file : List UInt8) : Option Fields :=
  if part 0 4 file = tag "RIFF" ∧ part 8 4 file = tag "WAVE" ∧ part 12 4 file = tag "fmt " ∧
      part 36 4 file = tag "data" then
    some
      { riffSize := number (part 4 4 file)
        formatSize := number (part 16 4 file)
        coding := number (part 20 2 file)
        channels := number (part 22 2 file)
        rate := number (part 24 4 file)
        byteRate := number (part 28 4 file)
        blockSize := number (part 32 2 file)
        bits := number (part 34 2 file)
        dataSize := number (part 40 4 file) }
  else none

theorem length_tags : (tag "RIFF").length = 4 ∧ (tag "WAVE").length = 4 ∧
    (tag "fmt ").length = 4 ∧ (tag "data").length = 4 := by decide +kernel

theorem length_header (f : Format) (size : Nat) : (header f size).length = 44 := by
  simp [header, length_tags, length_littleEndian]

theorem part_here {count : Nat} {here : List UInt8} (h : here.length = count)
    (file : List UInt8) : part 0 count (here ++ file) = here := by
  rw [← h, part, List.drop_zero, List.take_left]

theorem part_behind {start count : Nat} {before : List UInt8} (h : before.length ≤ start)
    (file : List UInt8) :
    part start count (before ++ file) = part (start - before.length) count file := by
  rw [part, List.drop_append, List.drop_eq_nil_of_le h]
  rfl

/-- **The header says what is so**, as far as its numbers reach. -/
theorem Fields.of?_header {rate size : Nat} (hs : 36 + size < 2 ^ 32) (hr : rate < 2 ^ 31)
    (data : List UInt8) :
    of? (header (mono rate) size ++ data)
      = some
        { riffSize := 36 + size, formatSize := 16, coding := 1, channels := 1, rate
          byteRate := rate * 2, blockSize := 2, bits := 16, dataSize := size } := by
  have riffSize : number (littleEndian 4 (36 + size)) = 36 + size := number_littleEndian (by omega)
  have rate_eq : number (littleEndian 4 rate) = rate := number_littleEndian (by omega)
  have byteRate : number (littleEndian 4 (rate * 2)) = rate * 2 := number_littleEndian (by omega)
  have dataSize : number (littleEndian 4 size) = size := number_littleEndian (by omega)
  simp [of?, header, mono, Format.blockSize, part_here, part_behind, length_tags,
    length_littleEndian, number_littleEndian, riffSize, rate_eq, byteRate, dataSize]

/-! ## Sample by sample -/

/-- A file that is being written. -/
structure Writer where
  format : Format
  /-- Room for the header, and the bytes of the samples so far. -/
  bytes : List UInt8

namespace Writer

/-- A file without samples. -/
def create (format : Format) : Writer := ⟨format, unfinished⟩

/-- The file with one sample more, its two's complement in two bytes. -/
def add (w : Writer) (level : Int16) : Writer :=
  { w with bytes := w.bytes ++ littleEndian 2 level.toUInt16.toNat }

/-- The bytes of the file, with its header in the room for it. -/
def finish (w : Writer) : List UInt8 :=
  header w.format (w.bytes.length - unfinished.length) ++ w.bytes.drop unfinished.length

end Writer

/-- What is left of writing samples one after the other, in memory or in a file. -/
def write (rate : Nat) (samples : List Int16) : List UInt8 :=
  (samples.foldl Writer.add (.create (mono rate))).finish

/-- A level has the same bytes with a header and without one. -/
theorem littleEndian_level (level : Int16) :
    littleEndian 2 level.toUInt16.toNat = Pcm.levelBytes level := by
  have high : UInt8.ofNat (level.toUInt16.toNat / 256) = (level.toUInt16 >>> 8).toUInt8 := by
    apply UInt8.toNat_inj.mp
    simp [Nat.shiftRight_eq_div_pow]
  simp only [littleEndian, Pcm.levelBytes, high]
  rfl

theorem Writer.foldl_add (w : Writer) (samples : List Int16) :
    samples.foldl add w = { w with bytes := w.bytes ++ Pcm.bytes samples } := by
  induction samples generalizing w with
  | nil => simp [Pcm.bytes]
  | cons level samples ih =>
    rw [List.foldl_cons, ih]
    simp [add, littleEndian_level, Pcm.bytes, List.append_assoc]

/-- **A file that is written sample by sample is its header and the bytes of the samples.** -/
theorem write_eq (rate : Nat) (samples : List Int16) :
    write rate samples = header (mono rate) (2 * samples.length) ++ Pcm.bytes samples := by
  simp [write, Writer.foldl_add, Writer.create, Writer.finish]

/-! ## Files -/

theorem encode?_of_pos {rate : Nat} (hr : 1 ≤ rate) (samples : List Int16) :
    encode? rate samples
      = some (header (mono rate) (2 * samples.length) ++ Pcm.bytes samples) := by
  have nonzero : rate ≠ 0 := by omega
  simp [encode?, nonzero]

theorem drop_header (f : Format) (size : Nat) (data : List UInt8) :
    (header f size ++ data).drop 44 = data := by
  rw [← length_header f size, List.drop_left]

/-- **A WAV file carries the bytes that are written without a header, and says what they are.** In
the range of the format every sequence of samples has a file, the same whether it is encoded at
once or written sample by sample. The file gives back its rate and its samples, so no other rate
and no other samples have the same one. -/
theorem encode?_readBack {rate : Nat} {samples : List Int16}
    (size : 36 + 2 * samples.length < 2 ^ 32) (low : 1 ≤ rate) (high : rate < 2 ^ 31) :
    ∃ file, encode? rate samples = some file ∧ write rate samples = file ∧
      Fields.of? file
        = some
          { riffSize := 36 + 2 * samples.length, formatSize := 16, coding := 1, channels := 1, rate
            byteRate := rate * 2, blockSize := 2, bits := 16, dataSize := 2 * samples.length } ∧
      file.length = 44 + 2 * samples.length ∧
      file.drop 44 = Pcm.bytes samples ∧
      Pcm.levels (file.drop 44) = samples ∧
      ∀ (rate' : Nat) (samples' : List Int16), 36 + 2 * samples'.length < 2 ^ 32 →
        1 ≤ rate' → rate' < 2 ^ 31 → encode? rate' samples' = some file →
          rate' = rate ∧ samples' = samples := by
  have fields := Fields.of?_header size high (Pcm.bytes samples)
  have data := drop_header (mono rate) (2 * samples.length) (Pcm.bytes samples)
  refine ⟨_, encode?_of_pos low samples, write_eq rate samples, fields, ?_, data, ?_, ?_⟩
  · rw [List.length_append, length_header, Pcm.length_bytes]
  · rw [data, Pcm.levels_bytes]
  · intro rate' samples' size' low' high' same
    rw [encode?_of_pos low', Option.some.injEq] at same
    constructor
    · have fields' := Fields.of?_header size' high' (Pcm.bytes samples')
      rw [same, fields, Option.some.injEq, Fields.mk.injEq] at fields'
      exact fields'.2.2.2.2.1.symm
    · have data' := drop_header (mono rate') (2 * samples'.length) (Pcm.bytes samples')
      rw [same, data] at data'
      rw [← Pcm.levels_bytes samples', ← data', Pcm.levels_bytes]

/-- It holds of samples at both ends of the range, and another rate has another file. -/
theorem encode?_readBack_extremes :
    36 + 2 * [(1 : Int16), -1, 32767, -32768].length < 2 ^ 32 ∧ 1 ≤ 44100 ∧ 44100 < 2 ^ 31 ∧
      ∃ file, encode? 44100 [1, -1, 32767, -32768] = some file ∧
        write 44100 [1, -1, 32767, -32768] = file ∧
        Pcm.levels (file.drop 44) = [1, -1, 32767, -32768] ∧
        encode? 22050 [1, -1, 32767, -32768] ≠ some file := by
  have size : 36 + 2 * [(1 : Int16), -1, 32767, -32768].length < 2 ^ 32 := by decide
  have low : 1 ≤ 44100 := by decide
  have high : 44100 < 2 ^ 31 := by decide
  obtain ⟨file, encoded, written, -, -, -, levels, only⟩ := encode?_readBack size low high
  refine ⟨size, low, high, file, encoded, written, levels, fun same => ?_⟩
  have rate := (only 22050 _ size (by decide) (by decide) same).1
  cases rate

end Chiptune.Wav
