import BlockLang.CommandLine.Directory
import BlockLang.Main
import BlockLang.Proofs.Acceptance
import BlockLang.Proofs.PascalNames
import BlockLang.Proofs.RoundTrip
import BlockLang.Proofs.ViablePrefix
import BlockLang.Proofs.Precedence
import BlockLang.Proofs.PascalWords
import BlockLang.Proofs.PascalText
import BlockLang.Proofs.PascalReading
import BlockLang.Proofs.PascalReadBack
import BlockLang.Proofs.PascalExecution
import BlockLang.Proofs.CReading
import BlockLang.Proofs.LeadingZeros
import BlockLang.Proofs.Rescanning
import BlockLang.Proofs.CText
import BlockLang.Proofs.CReadBack
import BlockLang.Proofs.Gaps
import BlockLang.Proofs.MaximalMunch
import BlockLang.Proofs.Blame
import BlockLang.Proofs.Lookahead
import BlockLang.Proofs.FaultPositions
import BlockLang.Proofs.Relocation
import BlockLang.Proofs.Lexing
import BlockLang.Proofs.Isolation
import BlockLang.Proofs.AsciiListing
import BlockLang.Proofs.Encodings
import BlockLang.Proofs.OneLine
import BlockLang.Proofs.Usages
import BlockLang.Proofs.AllOrNothing
import BlockLang.Proofs.BlockNumbers
import BlockLang.Proofs.OpenBlocks
import BlockLang.Proofs.Rebuilding
import BlockLang.Proofs.Bracketing
import BlockLang.Proofs.DivisionKinds
import BlockLang.Proofs.Flattening
import BlockLang.Proofs.LaterCalls
import BlockLang.Proofs.StepRecords
import BlockLang.Proofs.TraceShape
import BlockLang.Proofs.Coordinates
import BlockLang.Proofs.FirstFreeName
import BlockLang.Proofs.CharacterSteps
import BlockLang.Proofs.Progress
import BlockLang.Proofs.Descent
import BlockLang.Proofs.Following
import BlockLang.Proofs.DeadEnds
