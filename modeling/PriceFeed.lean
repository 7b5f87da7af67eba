import PriceFeed.Exponential.Exact
import PriceFeed.Fixed.Parts
import PriceFeed.Fixed.Value
import PriceFeed.Json.Codec
import PriceFeed.Logged
import PriceFeed.Main
import PriceFeed.Proofs.Exponential.Accuracy
import PriceFeed.Proofs.Exponential.Octave
import PriceFeed.Proofs.Exponential.Scaling
import PriceFeed.Proofs.Fixed.Comparison
import PriceFeed.Proofs.Fixed.Parts
import PriceFeed.Proofs.Fixed.RoundTrip
import PriceFeed.Proofs.Json.Codec
import PriceFeed.Proofs.Quotes.Balance
import PriceFeed.Proofs.Quotes.Monotone
import PriceFeed.Proofs.Quotes.Robustness
import PriceFeed.Proofs.Quotes.Scale
import PriceFeed.Proofs.Quotes.Settled
import PriceFeed.Quotes.Ranks
