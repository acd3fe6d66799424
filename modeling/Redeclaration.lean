import Redeclaration.Main
import Redeclaration.Proofs.Declaration.Outline
import Redeclaration.Proofs.Declaration.OpenCapture
import Redeclaration.Proofs.Declaration.Tracking
import Redeclaration.Proofs.Token.Run
import Redeclaration.Proofs.Text.Lines
import Redeclaration.Proofs.Text.Search
import Redeclaration.Proofs.Token.Cuts
import Redeclaration.Proofs.Token.Lines
import Redeclaration.Proofs.Collision
import Redeclaration.Proofs.Detection
import Redeclaration.Proofs.Token.Plain
import Redeclaration.Proofs.Token.Brackets
import Redeclaration.Proofs.Token.Interpolation
import Redeclaration.Proofs.Declaration.Space
import Redeclaration.Proofs.Declaration.Body
import Redeclaration.Proofs.Detection.Tolerance
import Redeclaration.Proofs.Candidate
import Redeclaration.Proofs.Detection.ScanPaths
import Redeclaration.Proofs.LineEndings.Text
import Redeclaration.Proofs.LineEndings.Words
import Redeclaration.Proofs.LineEndings.Strings
import Redeclaration.Proofs.LineEndings.Tokens
import Redeclaration.Proofs.Declaration.Levels
import Redeclaration.Proofs.Detection.Log
import Redeclaration.Proofs.Token.Sections
import Redeclaration.Proofs.Report
import Redeclaration.Proofs.CommandLine
import Redeclaration.Proofs.Collision.Additions
import Redeclaration.Proofs.Token.EnumLookahead
import Redeclaration.Proofs.Token.Nesting
import Redeclaration.Proofs.Declaration.Traceless
import Redeclaration.Proofs.Path
import Redeclaration.Proofs.FileTree
import Redeclaration.Proofs.Candidate.Walk
import Redeclaration.Proofs.Token.Regions
import Redeclaration.Proofs.Declaration.Names
import Redeclaration.Proofs.Path.Below
import Redeclaration.Proofs.Text.Utf8
import Redeclaration.Proofs.Path.Coding
import Redeclaration.Proofs.Path.Bytes
import Redeclaration.Proofs.FileTree.Canonical
import Redeclaration.Proofs.Settings
import Redeclaration.Proofs.Settings.File
import Redeclaration.Proofs.Detection.ReportedPaths
import Redeclaration.Proofs.Declaration.Constants
import Redeclaration.Proofs.Detection.Exclusion
import Redeclaration.Proofs.Json.Text
import Redeclaration.Proofs.Settings.Document
import Redeclaration.Proofs.Json.Value
import Redeclaration.Proofs.Report.Json
import Redeclaration.Proofs.Loop
import Redeclaration.Proofs.Token.Loops
import Redeclaration.Proofs.Token.Fragments
import Redeclaration.Proofs.Token.Progress
import Redeclaration.Proofs.Token.Answers
import Redeclaration.Proofs.Token.Termination
