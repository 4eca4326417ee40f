import ProcLang.Command
import ProcLang.Main
import ProcLang.Proofs.Comments
import ProcLang.Proofs.Confined
import ProcLang.Proofs.Construction
import ProcLang.Proofs.Grammar.Program
import ProcLang.Proofs.History
import ProcLang.Proofs.Linking
import ProcLang.Proofs.Locality
import ProcLang.Proofs.Lookahead
import ProcLang.Proofs.Meaning.InPlace
import ProcLang.Proofs.Meaning.Program
import ProcLang.Proofs.ModuleHeader
import ProcLang.Proofs.ModuleNames
import ProcLang.Proofs.Outline
import ProcLang.Proofs.Placeless
import ProcLang.Proofs.Positions
import ProcLang.Proofs.Reading.Module
import ProcLang.Proofs.Requests
import ProcLang.Proofs.StringLiterals
import ProcLang.Proofs.TextConstants
import ProcLang.Proofs.Total
import ProcLang.Proofs.Trailing
import ProcLang.Proofs.UniqueNames
import ProcLang.Proofs.Unreached
import ProcLang.Proofs.Valid
import ProcLang.Proofs.Writing
import ProcLang.Tree.Outline
