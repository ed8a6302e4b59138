import Padre.General.CString
import Padre.General.Numeral
import Padre.General.FuelLoop
import Padre.General.Trace
import Padre.General.Outcome
import Padre.General.Rows
import Padre.General.Residues
import Padre.Model.Accounts
import Padre.Model.Charset
import Padre.Model.Derivation
import Padre.Model.CommandLine
import Padre.Model.Terminal
import Padre.Model.Program
import Padre.Database.AccountList
import Padre.Database.TextReader
import Padre.Database.RowMeaning
import Padre.Database.Contents
import Padre.Database.RoundTrip
import Padre.Database.Neighbours
import Padre.Database.Completeness
import Padre.Database.LastRow
import Padre.Charset.Notation
import Padre.Charset.Scan
import Padre.Charset.NonEmpty
import Padre.Charset.Characters
import Padre.Charset.Termination
import Padre.Charset.Capacity
import Padre.Charset.WrittenSpec
import Padre.Charset.Writes
import Padre.Charset.Joined
import Padre.Password.Conversion
import Padre.Password.Salt
import Padre.CommandLine.Options
import Padre.CommandLine.Rejected
import Padre.CommandLine.Meaning
import Padre.Run.KeyFree
import Padre.Run.Prompt
import Padre.Run.MasterPassword
import Padre.Run.TypedLine
import Padre.Run.Printed
import Padre.Run.DatabaseFile
import Padre.Run.SizeLimit
import Padre.Run.Agreement
import Padre.Database.WrittenLength
import Padre.Database.Pushes
import Padre.Database.Frame
import Padre.Database.Diagnostics
import Padre.Run.Selection
import Padre.Run.ReadError
import Padre.Run.Buffer
import Padre.Run.Menu
import Padre.Run.Purpose
import Padre.Run.Refines
import Padre.Run.Stops
import Padre.Run.Ends
import Padre.Run.Faults
import Padre.Run.Silent
import Padre.Database.Pointers
import Padre.Run.Phases
import Padre.Run.Alike
import Padre.Run.Selected
import Padre.Run.Prints
import Padre.Run.Distribution
import Padre.Database.Normal
import Padre.Run.Spelling
import Padre.Run.Places
