import WordMachine.Assembly.Report
import WordMachine.Machine.Dump
import WordMachine.Main
import WordMachine.Proofs.Toolchain
import WordMachine.Proofs.Binary.Canonical
import WordMachine.Proofs.Machine.Arguments
import WordMachine.Proofs.Assembly.Literals
import WordMachine.Proofs.Machine.Faults
import WordMachine.Proofs.Machine.Access
import WordMachine.Proofs.Machine.Footprint
import WordMachine.Proofs.Machine.Session
import WordMachine.Proofs.Assembly.Relocation
import WordMachine.Proofs.Machine.Decoded
import WordMachine.Proofs.Machine.Regions
import WordMachine.Proofs.Binary.Truncation
import WordMachine.Proofs.Assembly.Renaming
import WordMachine.Proofs.Binary.Representable
import WordMachine.Proofs.Machine.ArgumentTexts
import WordMachine.Proofs.Machine.Touched
import WordMachine.Proofs.Source.Tokens
import WordMachine.Proofs.Machine.Division
import WordMachine.Proofs.Source.Operands
import WordMachine.Proofs.Assembly.Renumbering
import WordMachine.Proofs.StringConstants
import WordMachine.Proofs.Machine.DivisionByZero
import WordMachine.Proofs.Assembly.FirstError
import WordMachine.Proofs.Screen
import WordMachine.Proofs.Machine.Stack
import WordMachine.Proofs.SymbolTable.History
import WordMachine.Proofs.Source.Numbers
import WordMachine.Proofs.Binary.Indexed
import WordMachine.Proofs.Assembly.Agreement
