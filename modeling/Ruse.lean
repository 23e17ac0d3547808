import Ruse.Core.AnchorRefine
import Ruse.Core.AnchorLine
import Ruse.Core.UndoBlock
import Ruse.Core.RegisterRun
import Ruse.Core.JumpLists
import Ruse.Core.WorkspaceStep
import Ruse.Core.Keymap
import Ruse.Core.Relocate
import Ruse.Core.LineCommands
import Ruse.Core.GlobalDelete
import Ruse.Core.FindMatchPair
import Ruse.Core.ExprSound
import Ruse.Core.BracketSelect
import Ruse.Core.SentenceObject
import Ruse.Core.SubstituteSound
import Ruse.Persist.JournalRun
import Ruse.Persist.Hunks
import Ruse.Tui.FoldGeometry
import Ruse.Tui.FoldRun
import Ruse.Tui.LspPos
import Ruse.Tui.ExRangeSurvives
import Ruse.Tui.KeyRoundTrip
import Ruse.Tui.IndentFolds
import Ruse.Tui.TermAlt
import Ruse.Core.SearchLanding
import Ruse.Tui.MacroRun
import Ruse.Core.ToggleComment
import Ruse.Core.Join
import Ruse.Core.EmacsKill
import Ruse.Core.ReplaceMode
import Ruse.Tui.SnippetTree
import Ruse.Core.Increment
import Ruse.Core.LineMemo
import Ruse.Tui.LspFrame
import Ruse.Tui.Trust
import Ruse.Save.Rotation
import Ruse.Save.Glob
