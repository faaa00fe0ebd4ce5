import Chiptune.Main
import Chiptune.Proofs.Run
import Chiptune.Yaml.Content
import Chiptune.Yaml.Token
import Chiptune.Yaml.Node
import Chiptune.Proofs.WrittenOut
import Chiptune.Proofs.Limit
import Chiptune.Proofs.Checked.Basic
import Chiptune.Proofs.Checked.Scanner
import Chiptune.Proofs.Checked.Passage
import Chiptune.Proofs.Checked.Rendering
import Chiptune.Proofs.LimitAgreement
import Chiptune.Proofs.Signal
import Chiptune.Proofs.Grammar.Basic
import Chiptune.Proofs.Grammar.LongestMatch
import Chiptune.Proofs.Grammar.Separator
import Chiptune.Proofs.Grammar.Length
import Chiptune.Proofs.Heard
import Chiptune.Proofs.Silence
import Chiptune.Proofs.Voices
import Chiptune.Proofs.Rests
import Chiptune.Proofs.Seed
import Chiptune.Proofs.Timing
import Chiptune.Proofs.Double.Packing
import Chiptune.Proofs.Double.Arithmetic
import Chiptune.Proofs.Double.Monotone
import Chiptune.Proofs.Double.Signed
import Chiptune.Proofs.WellFormed
import Chiptune.Proofs.Invocation
import Chiptune.Proofs.Wav
import Chiptune.Proofs.Finality
import Chiptune.Proofs.Weights
import Chiptune.Proofs.Gate
import Chiptune.Proofs.Echo
import Chiptune.Proofs.Contour
import Chiptune.Proofs.Mixing
import Chiptune.Proofs.Grammar.Slices
import Chiptune.Proofs.Duration
import Chiptune.Proofs.Levels
import Chiptune.Proofs.Filter
import Chiptune.Proofs.Loudness
import Chiptune.Proofs.Nesting
