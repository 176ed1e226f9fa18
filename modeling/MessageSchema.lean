import MessageSchema.Survey
import MessageSchema.Session
import MessageSchema.Bundle.Tour
import MessageSchema.Proofs.Decimal.Shortest
import MessageSchema.Proofs.Bundle.Sections
import MessageSchema.Proofs.Definition.Reading
import MessageSchema.Proofs.Field.Pieces
import MessageSchema.Proofs.Field.Printed
import MessageSchema.Proofs.Bundle.Printed
import MessageSchema.Proofs.Bundle.Reread
import MessageSchema.Proofs.Bundle.RoundTrip
import MessageSchema.Proofs.Bundle.Parsed
import MessageSchema.Proofs.Bundle.SecondReading
import MessageSchema.Proofs.Bundle.Stability
import MessageSchema.Proofs.Fingerprint.Canonical
import MessageSchema.Proofs.Bundle.Renaming
import MessageSchema.Proofs.Bundle.Candidates
import MessageSchema.Proofs.Fingerprint.Agreement
import MessageSchema.Proofs.Bundle.PrintedResolution
import MessageSchema.Proofs.Fingerprint.Expansion
import MessageSchema.Proofs.Fingerprint.Collision
import MessageSchema.Proofs.Bundle.Layout
import MessageSchema.Proofs.Bundle.Joining
import MessageSchema.Proofs.Bundle.WellFormed
import MessageSchema.Proofs.Bundle.Distinct
import MessageSchema.Proofs.Bundle.FirstFault
import MessageSchema.Proofs.Field.Grammar
import MessageSchema.Proofs.Definition.Outcome
import MessageSchema.Proofs.Fingerprint.Dependence
import MessageSchema.Proofs.Fingerprint.Retouching
import MessageSchema.Proofs.Fingerprint.Start
import MessageSchema.Proofs.Bundle.Splitting
import MessageSchema.Proofs.Literal
import MessageSchema.Proofs.Fingerprint.Touring
