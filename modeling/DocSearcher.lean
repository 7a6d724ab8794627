import DocSearcher.Proofs.Build
import DocSearcher.Proofs.CaseFold
import DocSearcher.Proofs.Console
import DocSearcher.Proofs.Content
import DocSearcher.Proofs.Desc
import DocSearcher.Proofs.Distribute
import DocSearcher.Proofs.Encoding
import DocSearcher.Proofs.EndToEnd
import DocSearcher.Proofs.HttpServer
import DocSearcher.Proofs.Page
import DocSearcher.Proofs.Pipeline
import DocSearcher.Proofs.RoundTrip
import DocSearcher.Proofs.Search
import DocSearcher.Proofs.Session
import DocSearcher.Proofs.Shown
import DocSearcher.Proofs.Utf8
import DocSearcher.Proofs.Weights
