import Chiptune.Pcm

/-!
# WAV files

A WAV file of one channel and 16 bits: a header of 44 bytes, then the bytes of the samples. All
numbers in the header are little-endian.
-/

namespace Chiptune.Wav

/-- What a file says about its samples. -/
structure Format where
  channels : Nat
  rate : Nat
  bits : Nat
deriving DecidableEq

/-- One channel of 16 bits. -/
def mono (rate : Nat) : Format := ⟨1, rate, 16⟩

/-- The bytes of one sample on all channels. -/
def Format.blockSize (f : Format) : Nat := f.channels * (f.bits / 8)

/-- The lowest `count` bytes of a number, the least first. -/
def littleEndian : (count n : Nat) → List UInt8
  | 0, _ => []
  | count + 1, n => UInt8.ofNat n :: littleEndian count (n / 256)

/-- The codes of the characters of an ASCII tag. -/
def tag (name : String) : List UInt8 := name.toList.map fun c => UInt8.ofNat c.toNat

/-- The header in front of `size` bytes of samples. -/
def header (f : Format) (size : Nat) : List UInt8 :=
  tag "RIFF" ++ littleEndian 4 (36 + size) ++ tag "WAVE" ++
    tag "fmt " ++ littleEndian 4 16 ++ littleEndian 2 1 ++ littleEndian 2 f.channels ++
    littleEndian 4 f.rate ++ littleEndian 4 (f.rate * f.blockSize) ++
    littleEndian 2 f.blockSize ++ littleEndian 2 f.bits ++
    tag "data" ++ littleEndian 4 size

/-- A file that was begun and has no header: zeros in its place, but for the size of what follows
the first eight bytes. -/
def unfinished : List UInt8 :=
  List.replicate 4 0 ++ littleEndian 4 36 ++ List.replicate 36 0

/-- The file of some samples. There is none with a rate of zero. -/
def encode? (rate : Nat) (samples : List Int16) : Option (List UInt8) :=
  if rate = 0 then none
  else
    let data := Pcm.bytes samples
    some (header (mono rate) data.length ++ data)

end Chiptune.Wav
