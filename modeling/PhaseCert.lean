import PhaseCert.Main
import PhaseCert.Proofs.Binary64.Nearest
import PhaseCert.Proofs.Certificate.Normalization
import PhaseCert.Proofs.Certificate.Enclosure
import PhaseCert.Proofs.Decimal.FixedPlaces
import PhaseCert.Proofs.Instance.Reading
import PhaseCert.Proofs.Instance.Statement
import PhaseCert.Proofs.Instance.Soundness
import PhaseCert.Proofs.Instance.Enclosure
import PhaseCert.Proofs.Protocol.Schema
import PhaseCert.Proofs.Protocol.Validation
import PhaseCert.Proofs.Certificate.Bundle
import PhaseCert.Proofs.Certificate.Renormalization
import PhaseCert.Proofs.Protocol.Document
import PhaseCert.Proofs.Binary64.Neighbours
import PhaseCert.Proofs.Decimal.Rounding
import PhaseCert.Proofs.Decimal.Shortest
import PhaseCert.Proofs.Decimal.Layout
import PhaseCert.Proofs.Toml.Flow
import PhaseCert.Proofs.Yaml.Number
import PhaseCert.Proofs.Yaml.Scan
import PhaseCert.Proofs.Yaml.Flow
import PhaseCert.Proofs.Yaml.Reader
import PhaseCert.Proofs.Protocol.Texts
import PhaseCert.Proofs.Binary64.Whole
import PhaseCert.Proofs.Instance.Count
import PhaseCert.Proofs.Instance.Lookups
import PhaseCert.Proofs.Files.Growth
import PhaseCert.Proofs.Pipeline.Course
import PhaseCert.Proofs.Pipeline.Effects
import PhaseCert.Proofs.Json.Reader
import PhaseCert.Proofs.Pipeline.Bound
import PhaseCert.Proofs.Pipeline.History
import PhaseCert.Proofs.Protocol.Content
import PhaseCert.Proofs.Protocol.Outline
import PhaseCert.Proofs.Parameters
import PhaseCert.Proofs.Place
import PhaseCert.Proofs.Protocol.Replacement
import PhaseCert.Proofs.Protocol.Store
import PhaseCert.Proofs.Protocol.Numbers
import PhaseCert.Proofs.Instance.Monotone
import PhaseCert.Proofs.Instance.Budget
import PhaseCert.Proofs.Pipeline.Report
import PhaseCert.Proofs.Binary64.Closest
import PhaseCert.Proofs.Decimal.Places
import PhaseCert.Proofs.Instance.Literal
import PhaseCert.Proofs.Instance.Template
import PhaseCert.Proofs.Instance.Decimals
import PhaseCert.Proofs.Json.Spacing
import PhaseCert.Proofs.Parameters.Tree
import PhaseCert.Proofs.Certificate.Decoding
import PhaseCert.Proofs.Certificate.Text
import PhaseCert.Proofs.Certificate.Estimate
import PhaseCert.Proofs.Text.ByteOrder
import PhaseCert.Proofs.Parameters.Operations
import PhaseCert.Proofs.Text.Blank
import PhaseCert.Proofs.Pipeline.Verdict
import PhaseCert.Proofs.Text.LowerCase
import PhaseCert.Proofs.Files.Extension
import PhaseCert.Proofs.Protocol.Respelling
import PhaseCert.Proofs.Binary64.Overflow
import PhaseCert.Proofs.Protocol.Numerals
