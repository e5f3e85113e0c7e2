import MipsMacro.Command.Directory
import MipsMacro.Definition.Describe
import MipsMacro.Main
import MipsMacro.Proofs.BlockGrammar
import MipsMacro.Proofs.Complaints
import MipsMacro.Proofs.Relexing
import MipsMacro.Proofs.Fragments
import MipsMacro.Proofs.Relocation
import MipsMacro.Proofs.MovedBlocks
import MipsMacro.Proofs.LocalLabels
import MipsMacro.Proofs.LexedLabels
import MipsMacro.Proofs.DefinedLabels
import MipsMacro.Proofs.RenamedLines
import MipsMacro.Proofs.Commits
import MipsMacro.Proofs.LineByLine
import MipsMacro.Proofs.Segments
import MipsMacro.Proofs.Positions
import MipsMacro.Proofs.UnboundParameters
import MipsMacro.Proofs.LeftmostSplicing
import MipsMacro.Proofs.LosslessLexing
import MipsMacro.Proofs.SpacedTokens
import MipsMacro.Proofs.OpenLiterals
import MipsMacro.Proofs.Parentheses
import MipsMacro.Proofs.CallTokens
import MipsMacro.Proofs.WrittenCalls
import MipsMacro.Proofs.SpimStyle
import MipsMacro.Proofs.OmittedTokens
import MipsMacro.Proofs.RegisterNames
import MipsMacro.Proofs.CommitHistory
import MipsMacro.Proofs.Reports
import MipsMacro.Proofs.OptionMembers
import MipsMacro.Proofs.CommandRuns
import MipsMacro.Proofs.SplicedBytes
import MipsMacro.Proofs.EnclosingPairs
