import Botscript.Main
import Botscript.Robot.Run
import Botscript.Proofs.Parse.Limit
import Botscript.Proofs.Parse.Ending
import Botscript.Proofs.Grammar.Initial
import Botscript.Proofs.Meaning.Parsed
import Botscript.Proofs.Print.Legal
import Botscript.Proofs.Robot.Failure
import Botscript.Proofs.Robot.Snapshot
import Botscript.Proofs.Robot.Relay
import Botscript.Proofs.Robot.Reorder
import Botscript.Proofs.Text.Faults
import Botscript.Proofs.Token.Cover
import Botscript.Proofs.Token.Classes
import Botscript.Proofs.Token.Lines
import Botscript.Proofs.Cli.Commands
