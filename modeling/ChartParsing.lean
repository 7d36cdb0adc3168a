import ChartParsing.Diagram
import ChartParsing.Graphviz
import ChartParsing.Parser
import ChartParsing.Source.Load
import ChartParsing.Proofs.Chart.Insertion
import ChartParsing.Proofs.Chart.Search
import ChartParsing.Proofs.Grammar.Lookup
import ChartParsing.Proofs.Inference
import ChartParsing.Proofs.Rule.Apply
import ChartParsing.Proofs.Rule.Sweep
import ChartParsing.Proofs.Rule.Insertions
import ChartParsing.Proofs.Rule.Everywhere
import ChartParsing.Proofs.Chart.Capacity
import ChartParsing.Proofs.Rounds
import ChartParsing.Proofs.Label.Feature
import ChartParsing.Trace
import ChartParsing.Proofs.Parser.Fixpoint
import ChartParsing.Proofs.Plain.Derivation
import ChartParsing.Proofs.Plain.Edges
import ChartParsing.Proofs.Tree.Avoiding
import ChartParsing.Proofs.Tree.Visit
import ChartParsing.Proofs.Tree.Extraction
import ChartParsing.Proofs.Parser.Parses
import ChartParsing.Proofs.Chart.Agreement
import ChartParsing.Proofs.Parser.Independence
import ChartParsing.Proofs.Plain.Acyclic
import ChartParsing.Proofs.Plain.Parses
import ChartParsing.Proofs.Rule.Run
import ChartParsing.Proofs.Chart.Session
import ChartParsing.Proofs.Feature.Substitution
import ChartParsing.Proofs.Feature.Merge
import ChartParsing.Proofs.Feature.Unification
import ChartParsing.Proofs.Label.Series
import ChartParsing.Proofs.Feature.Solution
import ChartParsing.Proofs.Parser.Steps
import ChartParsing.Proofs.Rule.Moments
import ChartParsing.Proofs.Plain.Count
import ChartParsing.Proofs.Parser.Termination
import ChartParsing.Proofs.Chart.History
import ChartParsing.Proofs.Parser.Safety
import ChartParsing.Proofs.Stretch
import ChartParsing.Proofs.Relabel.Label
import ChartParsing.Proofs.Relabel.Chart
import ChartParsing.Proofs.Relabel.Rule
import ChartParsing.Proofs.Relabel.Parser
import ChartParsing.Proofs.Feature.Bare
import ChartParsing.Proofs.Parser.Featureless
import ChartParsing.Proofs.Feature.Extension
import ChartParsing.Proofs.Tree.Grounded
import ChartParsing.Proofs.Tree.Yield
import ChartParsing.Proofs.Source.RoundTrip
import ChartParsing.Proofs.Chart.Effect
import ChartParsing.Proofs.Rule.Report
import ChartParsing.Proofs.Parser.Account
import ChartParsing.Proofs.Rule.Proposals
import ChartParsing.Proofs.Rule.Exhaustive
import ChartParsing.Proofs.Source.Recognition
import ChartParsing.Proofs.Source.Loading
import ChartParsing.Proofs.Source.Commentary
import ChartParsing.Proofs.Source.Annotation
import ChartParsing.Proofs.Tree.Descent
import ChartParsing.Proofs.Cells
import ChartParsing.Proofs.Diagram
import ChartParsing.Proofs.Trace
import ChartParsing.Proofs.Graphviz.WellFormed
import ChartParsing.Proofs.Tree.Odometer
